import AiOsoc.Minirv.Arith

/-!
# Shifts

A shift moves each byte of its operand with a row of a table and puts the results
together. To the left the parts are added modulo the word size; to the right they
have no bit in common, so that nothing carries.
-/

namespace Minirv

set_option autoImplicit false

open Rv32e ByteMemory

/-! ## Bytes and bits -/

section Bits
variable (v u : BitVec 32)

theorem low_eq : v.extractLsb' 0 8 = byteAt v 0 := rfl

theorem byteAt_setWidth (y : BitVec 8) : byteAt (y.setWidth 32) 0 = y := low_setWidth y

theorem getLsbD_byteAt (b i : Nat) :
    (byteAt v b).getLsbD i = (decide (i < 8) && v.getLsbD (8 * b + i)) := by
  rw [byteAt, BitVec.getLsbD_extractLsb']

theorem getLsbD_ofBytes (b3 b2 b1 b0 : BitVec 8) (i : Nat) :
    (ofBytes b3 b2 b1 b0).getLsbD i =
      if i < 8 then b0.getLsbD i else if i < 16 then b1.getLsbD (i - 8)
      else if i < 24 then b2.getLsbD (i - 16) else b3.getLsbD (i - 24) := by
  simp only [ofBytes, BitVec.getLsbD_append]
  grind

/-- A word whose lowest byte goes to the top. -/
theorem setByte_top : setByte 0#32 3 (byteAt v 0) = v <<< 24 := by
  have hbytes : setByte 0#32 3 (byteAt v 0) = ofBytes (byteAt v 0) 0#8 0#8 0#8 := rfl
  apply BitVec.eq_of_getLsbD_eq
  intro i hi
  simp only [hbytes, getLsbD_ofBytes, getLsbD_byteAt, BitVec.getLsbD_shiftLeft, BitVec.getLsbD_zero]
  grind

/-- A word whose lower half goes to the upper one. -/
theorem setByte_upper (h0 : byteAt u 0 = 0#8) (h1 : byteAt u 1 = 0#8) :
    setByte (setByte u 2 (byteAt v 0)) 3 (byteAt v 1) = v <<< 16 := by
  have hbytes : setByte (setByte u 2 (byteAt v 0)) 3 (byteAt v 1) =
      ofBytes (byteAt v 1) (byteAt v 0) 0#8 0#8 := by
    rw [← ofBytes_byteAt (setByte _ 3 _)]
    simp [byteAt_setByte, h0, h1]
  apply BitVec.eq_of_getLsbD_eq
  intro i hi
  simp only [hbytes, getLsbD_ofBytes, getLsbD_byteAt, BitVec.getLsbD_shiftLeft, BitVec.getLsbD_zero]
  grind

theorem sum_bytes : (byteAt v 3).setWidth 32 <<< 24 + (byteAt v 2).setWidth 32 <<< 16 +
    (byteAt v 1).setWidth 32 <<< 8 + (byteAt v 0).setWidth 32 = v := by
  have hv := v.isLt
  apply BitVec.eq_of_toNat_eq
  simp only [BitVec.toNat_add, BitVec.toNat_shiftLeft, toNat_byteAt_word, Nat.shiftLeft_eq]
  omega

theorem sll_bytes (n : Nat) : ((byteAt v 3).setWidth 32 <<< n) <<< 24 +
    ((byteAt v 2).setWidth 32 <<< n) <<< 16 + ((byteAt v 1).setWidth 32 <<< n) <<< 8 +
    (byteAt v 0).setWidth 32 <<< n = v <<< n := by
  have hswap : ∀ (y : BitVec 32) (k : Nat), (y <<< n) <<< k = (y <<< k) <<< n := by
    intro y k
    rw [← BitVec.shiftLeft_add, ← BitVec.shiftLeft_add, Nat.add_comm]
  rw [hswap, hswap, hswap, ← BitVec.shiftLeft_add_distrib, ← BitVec.shiftLeft_add_distrib,
    ← BitVec.shiftLeft_add_distrib, sum_bytes]

end Bits

/-! ## To the right -/

/-- The entry of a byte in the row for `n`. -/
def srlEntry (y : BitVec 8) (n : Nat) : BitVec 32 := (y.setWidth 32 <<< 24) >>> n

/-- The three lower bytes of an operand, shifted to their places. -/
def srlLow (v : BitVec 32) (n : Nat) : BitVec 32 :=
  ofBytes 0#8 (byteAt (srlEntry (byteAt v 2) n) 3)
    (byteAt (srlEntry (byteAt v 2) n) 2 ||| byteAt (srlEntry (byteAt v 1) n) 3)
    (byteAt (srlEntry (byteAt v 2) n) 1 ||| byteAt (srlEntry (byteAt v 1) n) 2 |||
      byteAt (srlEntry (byteAt v 0) n) 3)

section Right
variable (v : BitVec 32) (n : Nat)

theorem getLsbD_srlEntry (y : BitVec 8) (i : Nat) :
    (srlEntry y n).getLsbD i = (decide (24 ≤ n + i ∧ n + i < 32) && y.getLsbD (n + i - 24)) := by
  simp only [srlEntry, BitVec.getLsbD_ushiftRight, BitVec.getLsbD_shiftLeft,
    BitVec.getLsbD_setWidth]
  grind

/-- The bits of `v` below its top byte. -/
theorem getLsbD_srlLow (i : Nat) :
    (srlLow v n).getLsbD i = (decide (n + i < 24) && v.getLsbD (n + i)) := by
  simp only [srlLow, getLsbD_ofBytes, BitVec.getLsbD_or, getLsbD_byteAt, getLsbD_srlEntry,
    BitVec.getLsbD_zero]
  grind

theorem srl_bytes : srlLow v n + srlEntry (byteAt v 3) n = v >>> n := by
  have hdisj : srlLow v n &&& srlEntry (byteAt v 3) n = 0#32 := by
    apply BitVec.eq_of_getLsbD_eq
    intro i hi
    simp only [BitVec.getLsbD_and, getLsbD_srlLow, getLsbD_srlEntry, BitVec.getLsbD_zero]
    grind
  rw [BitVec.add_eq_or_of_and_eq_zero _ _ hdisj]
  apply BitVec.eq_of_getLsbD_eq
  intro i hi
  simp only [BitVec.getLsbD_or, getLsbD_srlLow, getLsbD_srlEntry, getLsbD_byteAt,
    BitVec.getLsbD_ushiftRight]
  grind

theorem sra_bytes : srlLow v n + ((byteAt v 3).setWidth 32 <<< 24).sshiftRight n =
    v.sshiftRight n := by
  have hmsb : ((byteAt v 3).setWidth 32 <<< 24).msb = v.msb := by
    simp only [BitVec.msb_eq_getLsbD_last, BitVec.getLsbD_shiftLeft, BitVec.getLsbD_setWidth,
      getLsbD_byteAt]
    grind
  have hbit : ∀ i < 32, (((byteAt v 3).setWidth 32 <<< 24).sshiftRight n).getLsbD i =
      (decide (24 ≤ n + i) && (v.sshiftRight n).getLsbD i) := by
    intro i hi
    rw [BitVec.getLsbD_sshiftRight, BitVec.getLsbD_sshiftRight, hmsb]
    simp only [BitVec.getLsbD_shiftLeft, BitVec.getLsbD_setWidth, getLsbD_byteAt]
    grind
  have hlow : ∀ i < 32, n + i < 24 → (v.sshiftRight n).getLsbD i = v.getLsbD (n + i) := by
    intro i hi hn
    rw [BitVec.getLsbD_sshiftRight]
    grind
  have hdisj : srlLow v n &&& ((byteAt v 3).setWidth 32 <<< 24).sshiftRight n = 0#32 := by
    apply BitVec.eq_of_getLsbD_eq
    intro i hi
    simp only [BitVec.getLsbD_and, getLsbD_srlLow, hbit i hi, BitVec.getLsbD_zero]
    grind
  rw [BitVec.add_eq_or_of_and_eq_zero _ _ hdisj]
  apply BitVec.eq_of_getLsbD_eq
  intro i hi
  simp only [BitVec.getLsbD_or, getLsbD_srlLow, hbit i hi]
  by_cases hn : n + i < 24
  · simp [hn, hlow i hi hn]
  · simp [hn, Nat.le_of_not_lt hn]

/-- Bytes without a bit in common. -/
theorem add_bytes {y z : BitVec 8} (h : y &&& z = 0#8) :
    y.setWidth 32 + z.setWidth 32 = (y ||| z).setWidth 32 := by
  have hdisj : y.setWidth 32 &&& z.setWidth 32 = 0#32 := by
    rw [← BitVec.setWidth_and, h]
    rfl
  rw [BitVec.add_eq_or_of_and_eq_zero _ _ hdisj, BitVec.setWidth_or]

/-- Bytes that have been moved into different places have no bit in common. -/
theorem srlEntry_disjoint (y z : BitVec 8) {j k : Nat} (hjk : j < k) :
    byteAt (srlEntry y n) j &&& byteAt (srlEntry z n) k = 0#8 := by
  apply BitVec.eq_of_getLsbD_eq
  intro i hi
  simp only [BitVec.getLsbD_and, getLsbD_byteAt, getLsbD_srlEntry, BitVec.getLsbD_zero]
  grind

theorem srlLow_eq : setByte (setByte ((byteAt (srlEntry (byteAt v 2) n) 1).setWidth 32 +
      (byteAt (srlEntry (byteAt v 1) n) 2).setWidth 32 +
      (byteAt (srlEntry (byteAt v 0) n) 3).setWidth 32) 1
      (byteAt ((byteAt (srlEntry (byteAt v 2) n) 2).setWidth 32 +
        (byteAt (srlEntry (byteAt v 1) n) 3).setWidth 32) 0)) 2
      (byteAt (srlEntry (byteAt v 2) n) 3) = srlLow v n := by
  have hor : (byteAt (srlEntry (byteAt v 2) n) 1 ||| byteAt (srlEntry (byteAt v 1) n) 2) &&&
      byteAt (srlEntry (byteAt v 0) n) 3 = 0#8 := by
    apply BitVec.eq_of_getLsbD_eq
    intro i hi
    simp only [BitVec.getLsbD_and, BitVec.getLsbD_or, getLsbD_byteAt, getLsbD_srlEntry,
      BitVec.getLsbD_zero]
    grind
  have htop : ∀ y : BitVec 8, byteAt (y.setWidth 32) 3 = 0#8 := by
    intro y
    have hy := y.isLt
    apply BitVec.eq_of_toNat_eq
    rw [toNat_byteAt, BitVec.toNat_setWidth_of_le (by decide), BitVec.toNat_ofNat]
    omega
  rw [add_bytes (srlEntry_disjoint n _ _ (by decide)), add_bytes hor,
    add_bytes (srlEntry_disjoint n _ _ (by decide)), byteAt_setWidth,
    ← ofBytes_byteAt (setByte _ 2 _)]
  simp [byteAt_setByte, byteAt_setWidth, htop, srlLow, -BitVec.setWidth_or]

end Right

/-! ## Rows of the tables -/

/-- A table of words with the values of `g`, a row for each amount. -/
structure WordTable (sym : Symbols) (m : Memory) (table : BitVec 32)
    (g : BitVec 8 → Nat → BitVec 32) : Prop where
  aligned : ∀ j i, (entry table j i).toNat % 4 = 0
  isTable : ∀ j < 32, ∀ i, ∀ k < 4, sym.IsTable (entry table j i + BitVec.ofNat 32 k)
  value : ∀ j < 32, ∀ i, loadWord m (entry table j i) = g i j

section WordTables
variable {sym : Symbols} {m : Memory} (ht : Tables sym m)

theorem entry_aligned (ht : Tables sym m) {off : Nat} (hoff : off % 4 = 0) (j : Nat)
    (i : BitVec 8) : (entry (sym.logicShiftTable + BitVec.ofNat 32 off) j i).toNat % 4 = 0 := by
  have hbase := ht.aligned
  rw [entry_eq, BitVec.toNat_add, BitVec.toNat_ofNat]
  omega

theorem entry_isTable {off : Nat} (hoff : off ≤ 0x40000) {j : Nat} (hj : j < 32) (i : BitVec 8)
    {k : Nat} (hk : k < 4) : sym.IsTable
      (entry (sym.logicShiftTable + BitVec.ofNat 32 off) j i + BitVec.ofNat 32 k) := by
  have hi := i.isLt
  rw [entry_eq, add_ofNat]
  exact isTable_lut (by omega)

include ht

theorem sllTable : WordTable sym m sym.sll8Table fun i j => i.setWidth 32 <<< j := by
  refine ⟨?_, ?_, fun j hj i => lookup_sll ht hj i⟩
  · rw [sll8Table_eq]
    exact entry_aligned ht (by decide)
  · rw [sll8Table_eq]
    exact fun j hj i k hk => entry_isTable (by decide) hj i hk

theorem srlTable : WordTable sym m sym.srl8Table srlEntry := by
  refine ⟨?_, ?_, fun j hj i => lookup_srl ht hj i⟩
  · rw [srl8Table_eq]
    exact entry_aligned ht (by decide)
  · rw [srl8Table_eq]
    exact fun j hj i k hk => entry_isTable (by decide) hj i hk

theorem sraTable :
    WordTable sym m sym.sra8Table fun i j => (i.setWidth 32 <<< 24).sshiftRight j := by
  refine ⟨?_, ?_, fun j hj i => lookup_sra ht hj i⟩
  · rw [sra8Table_eq]
    exact entry_aligned ht (by decide)
  · rw [sra8Table_eq]
    exact fun j hj i k hk => entry_isTable (by decide) hj i hk

end WordTables

section Rows
variable {sym : Symbols} {m : Memory} {spv : BitVec 32} (hs : Site sym spv m)
  {Q : Regs spv → Work → Prop} {r : Regs spv} {w : Work} {rd rs1 rs2 : Reg}

/-- The amount that the five lowest bits of an operand give. -/
theorem and_amount (v : BitVec 32) :
    (0x1f#8 &&& byteAt v 0).setWidth 32 = BitVec.ofNat 32 (v.toNat % 32) := by
  apply BitVec.eq_of_toNat_eq
  have hmask : ∀ k : Nat, 0x1f &&& k = k % 32 := by
    intro k
    rw [Nat.and_comm]
    exact Nat.and_two_pow_sub_one_eq_mod k 5
  rw [BitVec.toNat_setWidth_of_le (by decide), BitVec.toNat_and, toNat_byteAt, BitVec.toNat_ofNat,
    BitVec.toNat_ofNat, hmask]
  omega

include hs in
theorem Wp.getshamt (hrd : Dest rd) (htp : rd ≠ tp)
    (h : ∀ t c, Q ((r.set tp (by decide) t).set rd hrd (BitVec.ofNat 32 ((r.x rs1).toNat % 32)))
      (w.setWord varB c)) : Wp sym m (Minirv.getshamt sym rd rs1) Q r w := by
  have hrow : ∀ i : BitVec 8, i.setWidth 32 + (sym.and8Table + 0x1f00#32) =
      sym.and8Table + (0x1f#8 ++ i).setWidth 32 := by
    intro i
    rw [row_column, ← ofNat_toNat_word, BitVec.add_comm]
    exact add_ofNat _ 0x1f00 i.toNat
  refine .sb (by decide) (by decide) (.lbu hrd (by decide) (by decide) (.append ?_))
  refine .la (by decide) ?_
  rw [Work.setWord_self, byteAt_setByte _ _ _ (by decide), if_pos rfl, low_eq]
  refine .add hrd ?_
  rw [Regs.set_self, Regs.set_of_ne _ _ _ htp, Regs.set_self, hrow]
  refine .lookup hs hrd (Regs.set_self ..) ((andTable hs.tables).isTable _ (byteAt (r.x rs1) 0))
    ((andTable hs.tables).value _ _) (.nil ?_)
  rw [Regs.set_set, and_amount, Regs.set_comm _ _ _ _ htp, Regs.set_set]
  exact h _ _

include hs in
theorem Wp.shiftRow {table : BitVec 32}
    (h : ∀ t c, Q ((r.set tp (by decide) t).set s0 (by decide)
      (table + BitVec.ofNat 32 (((r.x rs2).toNat % 32) <<< 10))) (w.setWord varB c)) :
    Wp sym m (Minirv.shiftRow sym table rs2) Q r w := by
  have hamount : ∀ k < 32, setByte 0#32 1 ((BitVec.ofNat 32 k).extractLsb' 0 8) <<< 2 =
      BitVec.ofNat 32 (k <<< 10) := by decide
  have hdouble : slli s0 s0 2 = Minirv.doublings s0 s0 2 := rfl
  have hzero : ∀ r' : Regs spv, r'.x x0 = 0#32 := fun r' => r'.zero
  have hlt : (r.x rs2).toNat % 32 < 32 := Nat.mod_lt _ (by decide)
  simp only [Minirv.shiftRow, hdouble, List.append_assoc, List.cons_append, List.nil_append]
  refine .append (.getshamt hs (by decide) (by decide) fun t c => .sw hs (by decide) ?_)
  refine .sb (by decide) (by decide) (.lw hs (by decide) (by decide) (.append ?_))
  refine .doublings (by decide) (by decide) (.append (.la (by decide) (.add (by decide) (.nil ?_))))
  have hne : s0 ≠ tp := by decide
  simp only [Work.setWord_self, Work.setWord_setWord, Regs.set_self, Regs.set_set, hzero,
    hamount _ hlt, Regs.set_of_ne _ _ _ hne]
  rw [Regs.set_comm _ _ _ _ hne, Regs.set_set, Regs.set_set, BitVec.add_comm]
  exact h _ _

theorem Wp.getShiftByteInTp {table : BitVec 32} {g : BitVec 8 → Nat → BitVec 32}
    (hs : Site sym spv m) (ht : WordTable sym m table g) {base : Reg} (hbase : base ≠ tp)
    {b j : Nat} (hb : b < 4) (hj : j < 32) (hrow : r.x base = table + BitVec.ofNat 32 (j <<< 10))
    (h : Q (r.set tp (by decide) (g (byteAt (w.word varA) b) j)) w) :
    Wp sym m (Minirv.getShiftByteInTp base b) Q r w := by
  have hdouble : slli tp tp 2 = Minirv.doublings tp tp 2 := rfl
  simp only [Minirv.getShiftByteInTp, hdouble, List.cons_append, List.nil_append]
  refine .lbu (by decide) (by decide) hb (.append (.doublings (by decide) (by decide) ?_))
  refine .add (by decide) ?_
  simp only [Regs.set_self, Regs.set_set, Regs.set_of_ne _ _ _ hbase, hrow]
  refine .lookupWord hs (by decide) (a := entry table j (byteAt (w.word varA) b)) (Regs.set_self ..)
    (ht.aligned j _) (ht.isTable j hj _) (ht.value j hj _) (.nil ?_)
  rw [Regs.set_set]
  exact h

end Rows

/-! ## The shifts -/

section Shifts
variable {sym : Symbols} {m : Memory} {spv : BitVec 32} (hs : Site sym spv m)
  {Q : Regs spv → Work → Prop} {r : Regs spv} {w : Work} {rd rs rs1 rs2 : Reg}

include hs in
/-- A halfword goes to the upper half of a scratch word. -/
theorem Wp.shSlot {n : Nat} (hn : n = varA ∨ n = varB) (h0 : byteAt (w.word n) 0 = 0#8)
    (h1 : byteAt (w.word n) 1 = 0#8)
    (h : ∀ t w', w'.word n = r.x rs <<< 16 → Work.Kept [n, varC] w w' →
      Q (r.set tp (by decide) t) w') :
    Wp sym m (Minirv.sh rs Rv32e.sp (spVarByte n 2)) Q r w := by
  have hrange : 1 ≤ n ∧ n ≤ 7 := by
    rcases hn with rfl | rfl <;> decide
  have hnext : spVarByte n 2 + 1#12 = spVarByte n 3 := by
    rcases hn with rfl | rfl <;> rfl
  have hne : n ≠ varC := by
    rcases hn with rfl | rfl <;> decide
  simp only [Minirv.sh, hnext, List.cons_append, List.nil_append]
  refine .sb hrange (by decide) (.append (.getbyte hs (by decide) (by decide) ?_))
  refine .sb hrange (by decide) (.nil ?_)
  rw [Regs.set_self, low_setWidth, Work.setWord_of_ne _ _ _ hne, Work.setWord_self, low_eq]
  refine h _ _ ?_ ?_
  · rw [Work.setWord_self, setByte_upper _ _ h0 h1]
  · exact (((Work.Kept.refl _ w).set (by simp) _).set (by simp) _).set (by simp) _

include hs in
theorem Wp.slli {imm : Nat} (hrd : Dest rd) : Wp sym m (Minirv.slli rd rs imm)
    (fun r' _ => Result r r' rd (r.x rs <<< imm)) r w := by
  have hzero : r.x x0 = 0#32 := r.zero
  unfold Minirv.slli
  split
  · rename_i h0
    rw [h0, BitVec.shiftLeft_zero]
    split
    · exact .mv hrd (.nil (.set hrd _))
    · rename_i hsame
      refine .nil ⟨?_, fun _ _ _ _ => rfl⟩
      rw [not_not.mp hsame]
  · split
    · rename_i h24
      simp only [List.cons_append, List.nil_append]
      refine .sw hs (by decide) (.sb (by decide) (by decide) (.lw hs hrd (by decide) ?_))
      refine .slliRest hrd ?_
      rw [Work.setWord_self, Work.setWord_self, Regs.set_self, Regs.set_set, hzero, low_eq,
        setByte_top, ← BitVec.shiftLeft_add, Nat.add_sub_cancel' h24]
      exact .set hrd _
    · split
      · rename_i h16
        simp only [List.append_assoc, List.cons_append, List.nil_append]
        refine .sw hs (by decide) (.append (.shSlot hs (Or.inl rfl) ?_ ?_ fun t w' hw _ => ?_))
        · rw [Work.setWord_self, hzero]
          rfl
        · rw [Work.setWord_self, hzero]
          rfl
        · refine .lw hs hrd (by decide) (.slliRest hrd ?_)
          rw [Regs.set_self, Regs.set_set, hw, ← BitVec.shiftLeft_add, Nat.add_sub_cancel' h16]
          exact .set_tp hrd _ _
      · exact .doublings (by omega) hrd (.set hrd _)

include hs in
theorem Wp.sll (hrd : Dest rd) : Wp sym m (Minirv.sll sym rd rs1 rs2)
    (fun r' _ => Result r r' rd (Alu.sll.eval (r.x rs1) (r.x rs2))) r w := by
  have ht := sllTable hs.tables
  have hj : (r.x rs2).toNat % 32 < 32 := Nat.mod_lt _ (by decide)
  have hdouble : Minirv.slli tp tp 8 = Minirv.doublings tp tp 8 := rfl
  have hzero : ∀ r' : Regs spv, r'.x x0 = 0#32 := fun r' => r'.zero
  simp only [Minirv.sll, hdouble, List.append_assoc, List.cons_append, List.nil_append]
  refine .sw hs (by decide) (.sw hs (by decide) (.append (.shiftRow hs fun t₀ c₀ => ?_)))
  refine .sw hs (by decide) (.append ?_)
  refine .getShiftByteInTp hs ht (by decide) (by decide) hj (Regs.set_self ..) ?_
  refine .sb (by decide) (by decide) (.lw hs (by decide) (by decide) (.append ?_))
  refine .getShiftByteInTp hs ht (by decide) (by decide) hj ?_
    (.append (.shSlot hs (Or.inr rfl) ?_ ?_ ?_))
  · simp only [Regs.set_x, gp, tp, s0, BitVec.reduceEq, if_true, if_false]
  · simp only [Work.setWord_self, hzero, byteAt_setByte _ _ _ (show 0 < 4 by decide)]
    rfl
  · simp only [Work.setWord_self, hzero, byteAt_setByte _ _ _ (show 1 < 4 by decide)]
    rfl
  intro t₁ w' hB hw
  have hA : w'.word varA = r.x rs1 := hw.word varA (by decide)
  have h1 : w'.word 1 = r.x s0 := hw.word 1 (by decide)
  have hA₀ : ∀ a b c, (((w.setWord 1 a).setWord varA b).setWord varB c).word varA = b :=
    fun _ _ _ => rfl
  refine .lw hs (by decide) (by decide) (.add (by decide) (.append ?_))
  refine .getShiftByteInTp hs ht (by decide) (by decide) hj ?_ (.append ?_)
  · simp only [Regs.set_x, gp, tp, s0, BitVec.reduceEq, if_true, if_false]
  refine .doublings (by decide) (by decide) (.add (by decide) (.append ?_))
  refine .getShiftByteInTp hs ht (by decide) (by decide) hj ?_ ?_
  · simp only [Regs.set_x, gp, tp, s0, BitVec.reduceEq, if_true, if_false]
  refine .lw hs (by decide) (by decide) (.add hrd (.nil ⟨?_, ?_⟩))
  · simp only [Regs.set_x, gp, tp, s0, BitVec.reduceEq, if_true, if_false, hA, hB, hA₀, hzero,
      low_eq, Work.setWord_self, Work.setWord_setWord, setByte_top, sll_bytes]
    rfl
  · intro q hq hgp htp
    simp only [Regs.set_x, if_neg hq, if_neg hgp, if_neg htp, h1]
    grind

include hs in
theorem Wp.shiftRightLow {n : Nat} (hn : n < 32)
    (hrow : r.x s0 = sym.srl8Table + BitVec.ofNat 32 (n <<< 10))
    (h : ∀ t w', Work.Kept [varB, varC, varD] w w' →
      Q ((r.set tp (by decide) t).set gp (by decide) (srlLow (w.word varA) n)) w') :
    Wp sym m Minirv.shiftRightLow Q r w := by
  have ht := srlTable hs.tables
  have hne : s0 ≠ tp := by decide
  simp only [Minirv.shiftRightLow, List.append_assoc, List.cons_append, List.nil_append]
  refine .append (.getShiftByteInTp hs ht hne (by decide) hn hrow (.sw hs (by decide) (.append ?_)))
  refine .getShiftByteInTp hs ht hne (by decide) hn ?_ (.sw hs (by decide) (.append ?_))
  · rw [Regs.set_of_ne _ _ _ hne, hrow]
  refine .getShiftByteInTp hs ht hne (by decide) hn ?_ (.sw hs (by decide) ?_)
  · rw [Regs.set_of_ne _ _ _ hne, Regs.set_of_ne _ _ _ hne, hrow]
  have hA : ∀ a b c, (((w.setWord varB a).setWord varC b).setWord varD c).word varA = w.word varA :=
    fun _ _ _ => rfl
  have hA₁ : ∀ a b, ((w.setWord varB a).setWord varC b).word varA = w.word varA := fun _ _ => rfl
  have hA₂ : ∀ a, (w.setWord varB a).word varA = w.word varA := fun _ => rfl
  have hB : ∀ a b c, (((w.setWord varB a).setWord varC b).setWord varD c).word varB = a :=
    fun _ _ _ => rfl
  have hC : ∀ a b c, (((w.setWord varB a).setWord varC b).setWord varD c).word varC = b :=
    fun _ _ _ => rfl
  simp only [Regs.set_self, Regs.set_set, hA₁, hA₂]
  refine .lbu (by decide) (by decide) (by decide) (.lbu (by decide) (by decide) (by decide) ?_)
  refine .add (by decide) (.lbu (by decide) (by decide) (by decide) (.add (by decide) ?_))
  refine .sw hs (by decide) (.lbu (by decide) (by decide) (by decide) ?_)
  refine .lbu (by decide) (by decide) (by decide) (.add (by decide) ?_)
  refine .sb (by decide) (by decide) ?_
  refine .lbu (by decide) (by decide) (by decide) (.sb (by decide) (by decide) ?_)
  refine .lw hs (by decide) (by decide) (.nil ?_)
  have hgt : gp ≠ tp := by decide
  have hswap : ∀ (r : Regs spv) a b, (r.set gp (by decide) a).set tp (by decide) b =
      (r.set tp (by decide) b).set gp (by decide) a := fun r a b => Regs.set_comm _ _ _ _ hgt _
  simp only [Work.setWord_self, Work.setWord_setWord, hB, hC, hswap, Regs.set_set, Regs.set_self,
    Regs.set_of_ne _ _ _ hgt.symm, low_eq, byteAt_setWidth, srlLow_eq]
  refine h _ _ ?_
  exact (((Work.Kept.refl _ w).set (by decide) _).set (by decide) _).set (by decide) _

/-- The number of bits that a shift moves by. -/
def Amount.value (x : Reg → BitVec 32) : Amount → Nat
  | .reg rs2 => (x rs2).toNat % 32
  | .imm shamt => shamt

include hs in
theorem Wp.shiftRightBase {amount : Amount}
    (h : ∀ t w', Work.Kept [varB] w w' → Q ((r.set tp (by decide) t).set s0 (by decide)
      (sym.srl8Table + BitVec.ofNat 32 (amount.value r.x <<< 10))) w') :
    Wp sym m (Minirv.shiftRightBase sym amount) Q r w := by
  cases amount with
  | reg rs2 => exact .shiftRow hs fun t c => h t _ ((Work.Kept.refl _ w).set (by decide) c)
  | imm shamt =>
    have hsame := h (r.x tp) w (.refl _ w)
    rw [Regs.set_same] at hsame
    exact .la (by decide) hsame

include hs in
/-- The top byte of the operand, and the sum of the parts. -/
theorem Wp.shiftRightTop {table d v : BitVec 32} {g : BitVec 8 → Nat → BitVec 32}
    (ht : WordTable sym m table g) {n : Nat} (hn : n < 32) {r₁ : Regs spv} (hrd : Dest rd)
    (hrow : r₁.x s0 = table + BitVec.ofNat 32 (n <<< 10)) (hgp : r₁.x gp = d)
    (hkept : ∀ q, q ≠ s0 → q ≠ gp → q ≠ tp → r₁.x q = r.x q) (h1 : w.word 1 = r.x s0)
    (hv : d + g (byteAt (w.word varA) 3) n = v) :
    Wp sym m (Minirv.getShiftByteInTp s0 3 ++ [pop s0 1, Rv32e.add rd gp tp])
      (fun r' _ => Result r r' rd v) r₁ w := by
  refine .append (.getShiftByteInTp hs ht (by decide) (by decide) hn hrow ?_)
  refine .lw hs (by decide) (by decide) (.add hrd (.nil ⟨?_, ?_⟩))
  · rw [Regs.set_self, Regs.set_of_ne _ _ _ (by decide), Regs.set_of_ne _ _ _ (by decide),
      Regs.set_of_ne _ _ _ (by decide), Regs.set_self, hgp, hv]
  · intro q hq hqgp hqtp
    by_cases hs0 : q = s0
    · rw [Regs.set_of_ne _ _ _ hq, hs0, Regs.set_self, h1]
    · rw [Regs.set_of_ne _ _ _ hq, Regs.set_of_ne _ _ _ hs0, Regs.set_of_ne _ _ _ hqtp,
        hkept q hs0 hqgp hqtp]

theorem next_table (table row table' : BitVec 32) :
    table + row + (table' - table) = table' + row := by
  bv_omega

/-- The top byte of a word. -/
theorem byteAt_three (v : BitVec 32) : (byteAt v 3).setWidth 32 = v >>> 24 := by
  apply BitVec.eq_of_toNat_eq
  have hv := v.isLt
  rw [toNat_byteAt_word, BitVec.toNat_ushiftRight, Nat.shiftRight_eq_div_pow]
  omega

theorem byteAt_three_sra (v : BitVec 32) :
    ((byteAt v 3).setWidth 32 <<< 24).sshiftRight 24 = v.sshiftRight 24 := by
  have hlow : srlLow v 24 = 0#32 := by
    apply BitVec.eq_of_getLsbD_eq
    intro i hi
    rw [getLsbD_srlLow, BitVec.getLsbD_zero]
    simp
  rw [← sra_bytes v, hlow, BitVec.zero_add]

include hs in
/-- The shift by three bytes. -/
theorem Wp.shiftRightFast {arith : Bool} (hrd : Dest rd) (htp : rd ≠ tp) :
    Wp sym m (Minirv.shiftRightTemplate sym rd rs1 (.imm 24) arith) (fun r' _ => Result r r' rd
      (if arith then (r.x rs1).sshiftRight 24 else r.x rs1 >>> 24)) r w := by
  have ht := sraTable hs.tables
  have hdouble : Minirv.slli rd rd 2 = Minirv.doublings rd rd 2 := rfl
  cases arith with
  | false =>
    refine Wp.getbyte hs (by decide) hrd ?_
    rw [byteAt_three]
    exact .set hrd _
  | true =>
    simp only [Minirv.shiftRightTemplate, hdouble, if_true, List.append_assoc, List.cons_append,
      List.nil_append]
    refine .sw hs (by decide) (.append (.la (by decide) (.lbu hrd (by decide) (by decide) ?_)))
    refine .append (.doublings (by decide) hrd (.add (by decide) ?_))
    simp only [Work.setWord_self, Regs.set_self, Regs.set_set, Regs.set_of_ne _ _ _ (Ne.symm htp)]
    refine .lookupWord hs hrd (a := entry sym.sra8Table 24 (byteAt (r.x rs1) 3)) (Regs.set_self ..)
      (ht.aligned 24 _) (ht.isTable 24 (by decide) _) (ht.value 24 (by decide) _) (.nil ⟨?_, ?_⟩)
    · rw [Regs.set_self, byteAt_three_sra]
    · intro q hq _ hqtp
      simp only [Regs.set_x, if_neg hq, if_neg hqtp]

include hs in
theorem Wp.shiftRightTemplate {amount : Amount} {arith : Bool} (hrd : Dest rd) (htp : rd ≠ tp)
    (hn : amount.value r.x < 32) :
    Wp sym m (Minirv.shiftRightTemplate sym rd rs1 amount arith) (fun r' _ => Result r r' rd
      (if arith then (r.x rs1).sshiftRight (amount.value r.x) else r.x rs1 >>> amount.value r.x))
      r w := by
  by_cases hfast : amount = .imm 24
  · subst hfast
    exact .shiftRightFast hs hrd htp
  · simp only [Minirv.shiftRightTemplate, if_neg hfast, List.append_assoc, List.cons_append,
      List.nil_append]
    refine .sw hs (by decide) (.sw hs (by decide) (.append (.shiftRightBase hs fun t w' hw => ?_)))
    refine .append (.shiftRightLow hs hn (Regs.set_self ..) fun t' w'' hw' => ?_)
    have hA : w'.word varA = r.x rs1 := hw.word varA (by decide)
    have hA' : w''.word varA = r.x rs1 := (hw'.word varA (by decide)).trans hA
    have h1 : w''.word 1 = r.x s0 := (hw'.word 1 (by decide)).trans (hw.word 1 (by decide))
    cases arith with
    | false =>
      refine .shiftRightTop hs (srlTable hs.tables) hn hrd ?_ (Regs.set_self ..) ?_ h1 ?_
      · simp only [Regs.set_x, gp, tp, s0, BitVec.reduceEq, if_true, if_false]
      · intro q hs0 hgp htp
        simp only [Regs.set_x, if_neg hs0, if_neg hgp, if_neg htp]
      · rw [hA, hA', srl_bytes]
        rfl
    | true =>
      refine .append (.append (.la (by decide) (.add (by decide) (.nil ?_))))
      refine .shiftRightTop hs (d := srlLow (r.x rs1) (amount.value r.x)) (sraTable hs.tables) hn
        hrd ?_ ?_ ?_ h1 ?_
      · simp only [Regs.set_x, gp, tp, s0, BitVec.reduceEq, if_true, if_false]
        exact next_table _ _ _
      · simp only [Regs.set_x, gp, tp, s0, BitVec.reduceEq, if_true, if_false, hA]
      · intro q hs0 hgp htp
        simp only [Regs.set_x, if_neg hs0, if_neg hgp, if_neg htp]
      · rw [hA', sra_bytes]
        rfl

include hs in
theorem Wp.srl (hrd : Dest rd) (htp : rd ≠ tp) : Wp sym m (Minirv.srl sym rd rs1 rs2)
    (fun r' _ => Result r r' rd (Alu.srl.eval (r.x rs1) (r.x rs2))) r w :=
  Wp.shiftRightTemplate hs hrd htp (Nat.mod_lt _ (by decide))

include hs in
theorem Wp.sra (hrd : Dest rd) (htp : rd ≠ tp) : Wp sym m (Minirv.sra sym rd rs1 rs2)
    (fun r' _ => Result r r' rd (Alu.sra.eval (r.x rs1) (r.x rs2))) r w :=
  Wp.shiftRightTemplate hs hrd htp (Nat.mod_lt _ (by decide))

include hs in
theorem Wp.srli {imm : Nat} (himm : imm < 32) (hrd : Dest rd) (htp : rd ≠ tp) :
    Wp sym m (Minirv.srli sym rd rs1 imm) (fun r' _ => Result r r' rd (r.x rs1 >>> imm)) r w :=
  Wp.shiftRightTemplate hs hrd htp himm

include hs in
theorem Wp.srai {imm : Nat} (himm : imm < 32) (hrd : Dest rd) (htp : rd ≠ tp) :
    Wp sym m (Minirv.srai sym rd rs1 imm)
      (fun r' _ => Result r r' rd ((r.x rs1).sshiftRight imm)) r w :=
  Wp.shiftRightTemplate hs hrd htp himm

end Shifts

end Minirv
