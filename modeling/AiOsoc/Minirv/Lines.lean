import AiOsoc.Minirv.Scratch

/-!
# The lines of a macro

Rules for the instructions that the macros are made of. A macro is run backwards
from what is wanted of the registers and the scratch words behind it.
-/

namespace Minirv

set_option autoImplicit false

open Rv32e ByteMemory

/-- A register that a line may write. -/
def Dest (rd : Reg) : Prop := rd ≠ 0#5 ∧ rd ≠ 2#5

instance (rd : Reg) : Decidable (Dest rd) := inferInstanceAs (Decidable (_ ∧ _))

/-- Register values with a stack pointer that does not move. -/
@[ext] structure Regs (spv : BitVec 32) where
  x : Reg → BitVec 32
  zero : x 0#5 = 0#32
  sp : x 2#5 = spv

def Regs.set {spv : BitVec 32} (r : Regs spv) (rd : Reg) (hrd : Dest rd) (v : BitVec 32) :
    Regs spv where
  x := Function.update r.x rd v
  zero := by rw [Function.update_of_ne (Ne.symm hrd.1), r.zero]
  sp := by rw [Function.update_of_ne (Ne.symm hrd.2), r.sp]

section Set
variable {spv : BitVec 32} (r : Regs spv) {rd : Reg} (hrd : Dest rd) (v : BitVec 32)

@[simp] theorem Regs.set_self : (r.set rd hrd v).x rd = v := Function.update_self ..

theorem Regs.set_of_ne {q : Reg} (hq : q ≠ rd) : (r.set rd hrd v).x q = r.x q :=
  Function.update_of_ne hq ..

theorem Regs.set_x (q : Reg) : (r.set rd hrd v).x q = if q = rd then v else r.x q :=
  Function.update_apply ..

@[simp] theorem Regs.set_set (v' : BitVec 32) :
    (r.set rd hrd v').set rd hrd v = r.set rd hrd v := by
  apply Regs.ext
  exact Function.update_idem ..

@[simp] theorem Regs.set_same : r.set rd hrd (r.x rd) = r :=
  Regs.ext (Function.update_eq_self rd r.x)

theorem Regs.set_comm {rd' : Reg} (hrd' : Dest rd') (hne : rd ≠ rd') (v' : BitVec 32) :
    (r.set rd hrd v).set rd' hrd' v' = (r.set rd' hrd' v').set rd hrd v := by
  apply Regs.ext
  exact Function.update_comm hne ..

end Set

section Wp
variable (sym : Symbols) (m : Memory) {spv : BitVec 32}

def conf (r : Regs spv) (w : Work) : Conf := ⟨r.x, w.fill sym spv m⟩

/-- The code ends with registers and scratch words that satisfy `Q`. -/
def Wp (code : List Instr) (Q : Regs spv → Work → Prop) (r : Regs spv) (w : Work) : Prop :=
  ∃ r' w', Does code (conf sym m r w) (conf sym m r' w') ∧ Q r' w'

variable {sym m} {is js : List Instr} {Q : Regs spv → Work → Prop} {r : Regs spv} {w : Work}
  {rd rs rt : Reg} {n b : Nat} {imm : BitVec 12}

theorem Wp.nil (h : Q r w) : Wp sym m [] Q r w := ⟨r, w, .nil _, h⟩

theorem Wp.append (h : Wp sym m is (Wp sym m js Q) r w) : Wp sym m (is ++ js) Q r w := by
  obtain ⟨r₁, w₁, h₁, r₂, w₂, h₂, hq⟩ := h
  exact ⟨r₂, w₂, h₁.append h₂, hq⟩

theorem Wp.mono {P : Regs spv → Work → Prop} (h : Wp sym m is P r w)
    (hpq : ∀ r w, P r w → Q r w) : Wp sym m is Q r w := by
  obtain ⟨r₁, w₁, h₁, hp⟩ := h
  exact ⟨r₁, w₁, h₁, hpq r₁ w₁ hp⟩

theorem Wp.cons {i : Instr} {r₁ : Regs spv} {w₁ : Work}
    (hi : Does [i] (conf sym m r w) (conf sym m r₁ w₁)) (h : Wp sym m is Q r₁ w₁) :
    Wp sym m (i :: is) Q r w := by
  obtain ⟨r₂, w₂, h₂, hq⟩ := h
  exact ⟨r₂, w₂, hi.cons h₂, hq⟩

/-! ### Registers -/

theorem Wp.addi (hrd : Dest rd)
    (h : Wp sym m is Q (r.set rd hrd (r.x rs + imm.signExtend 32)) w) :
    Wp sym m (addi rd rs imm :: is) Q r w := .cons (does_addi _ hrd.1 rs imm) h

theorem Wp.mv (hrd : Dest rd) (h : Wp sym m is Q (r.set rd hrd (r.x rs)) w) :
    Wp sym m (mv rd rs :: is) Q r w := by
  have h0 : r.x rs + (0#12).signExtend 32 = r.x rs := BitVec.add_zero _
  rw [← h0] at h
  exact .addi hrd h

theorem Wp.add (hrd : Dest rd) (h : Wp sym m is Q (r.set rd hrd (r.x rs + r.x rt)) w) :
    Wp sym m (add rd rs rt :: is) Q r w := .cons (does_add _ hrd.1 rs rt) h

theorem hi_lo (addr : BitVec 32) : (hi addr ++ 0#12) + (lo addr).signExtend 32 = addr := by
  have hlt := addr.isLt
  have hhi : (hi addr ++ 0#12).toNat = (addr.toNat + 0x800) % 2 ^ 32 / 4096 * 4096 := by
    simp only [hi, BitVec.toNat_append, BitVec.toNat_ofNat, BitVec.extractLsb'_toNat,
      Nat.shiftRight_eq_div_pow, Nat.shiftLeft_eq, Nat.zero_mod, Nat.or_zero, BitVec.toNat_add]
    omega
  have hlo : (lo addr).toNat = addr.toNat % 4096 := by
    simp [lo, BitVec.extractLsb'_toNat]
  have hext : ((lo addr).signExtend 32).toNat =
      (lo addr).toNat + if (lo addr).msb then 2 ^ 32 - 2 ^ 12 else 0 := by
    rw [BitVec.toNat_signExtend, BitVec.toNat_setWidth_of_le (by decide)]
  have hmsb : (lo addr).msb = decide (2048 ≤ (lo addr).toNat) := by
    rw [BitVec.msb_eq_decide]
  apply BitVec.eq_of_toNat_eq
  rw [BitVec.toNat_add, hhi, hext, hmsb, hlo]
  by_cases hbig : 2048 ≤ addr.toNat % 4096
  · rw [decide_eq_true hbig, if_pos rfl]
    omega
  · rw [decide_eq_false hbig, if_neg Bool.false_ne_true]
    omega

theorem does_la (c : Conf) (hrd : rd ≠ 0#5) (addr : BitVec 32) :
    Does (la rd addr) c ⟨Function.update c.x rd addr, c.mem⟩ := by
  have haddi := does_addi ⟨Function.update c.x rd (hi addr ++ 0#12), c.mem⟩ hrd rd (lo addr)
  simp only [Function.update_self, Function.update_idem, hi_lo] at haddi
  exact (does_lui c hrd (hi addr)).cons haddi

theorem Wp.la (hrd : Dest rd) {addr : BitVec 32} (h : Q (r.set rd hrd addr) w) :
    Wp sym m (la rd addr) Q r w := ⟨r.set rd hrd addr, w, does_la _ hrd.1 addr, h⟩

/-! ### Scratch words -/

theorem slot_address (r : Regs spv) (hn : n ≤ 7) (hb : b < 4) :
    r.x Rv32e.sp + (spVarByte n b).signExtend 32 = slot spv n b := by
  have hsmall : ∀ n : Nat, n ≤ 7 → ∀ b : Nat, b < 4 →
      (BitVec.ofInt 12 (-(n : Int) * 4 + b)).signExtend 32 =
        BitVec.ofInt 32 (-(n : Int) * 4 + b) := by decide
  rw [spVarByte, hsmall n hn b hb, slot]
  exact congrArg (· + _) r.sp

variable (hs : Site sym spv m)

include hs in
theorem slot_aligned (hn : n ≤ 7) : (slot spv n 0).toNat % 4 = 0 := by
  have ha := hs.aligned
  have hoff : ∀ n : Nat, n ≤ 7 → (BitVec.ofInt 32 (-(n : Int) * 4 + (0 : Nat))).toNat % 4 = 0 := by
    decide
  have := hoff n hn
  rw [slot, BitVec.toNat_add]
  omega

include hs in
theorem Wp.sw (hn : 1 ≤ n ∧ n ≤ 7) (h : Wp sym m is Q r (w.setWord n (r.x rs))) :
    Wp sym m (sw rs (spVar n) Rv32e.sp :: is) Q r w := by
  refine .cons ?_ h
  rw [conf, conf, ← storeWord_fill w hn]
  exact does_sw (conf sym m r w) Rv32e.sp rs (spVar n) (slot_address r hn.2 (by decide))
    (slot_aligned hs hn.2)

include hs in
theorem Wp.lwSlot (hrd : Dest rd) (hn : 1 ≤ n ∧ n ≤ 7)
    (haddr : r.x rs + imm.signExtend 32 = slot spv n 0)
    (h : Wp sym m is Q (r.set rd hrd (w.word n)) w) :
    Wp sym m (Rv32e.lw rd imm rs :: is) Q r w := by
  have hload : loadWord (w.fill sym spv m) (slot spv n 0) = w.word n := loadWord_fill w hn
  rw [← hload] at h
  refine .cons ?_ h
  exact does_lw (conf sym m r w) hrd.1 rs imm haddr (slot_aligned hs hn.2)

include hs in
theorem Wp.lw (hrd : Dest rd) (hn : 1 ≤ n ∧ n ≤ 7)
    (h : Wp sym m is Q (r.set rd hrd (w.word n)) w) :
    Wp sym m (lw rd (spVar n) Rv32e.sp :: is) Q r w :=
  .lwSlot hs hrd hn (slot_address r hn.2 (by decide)) h

theorem Wp.sb (hn : 1 ≤ n ∧ n ≤ 7) (hb : b < 4)
    (h : Wp sym m is Q r (w.setWord n (setByte (w.word n) b ((r.x rs).extractLsb' 0 8)))) :
    Wp sym m (sb rs (spVarByte n b) Rv32e.sp :: is) Q r w := by
  refine .cons ?_ h
  rw [conf, conf, ← storeByte_fill w hn hb]
  exact does_sb (conf sym m r w) Rv32e.sp rs (spVarByte n b) (slot_address r hn.2 hb)

theorem Wp.lbu (hrd : Dest rd) (hn : 1 ≤ n ∧ n ≤ 7) (hb : b < 4)
    (h : Wp sym m is Q (r.set rd hrd ((byteAt (w.word n) b).setWidth 32)) w) :
    Wp sym m (lbu rd (spVarByte n b) Rv32e.sp :: is) Q r w := by
  have hload : w.fill sym spv m (slot spv n b) = byteAt (w.word n) b := fill_slot w hn hb
  rw [← hload] at h
  refine .cons ?_ h
  exact does_lbu (conf sym m r w) hrd.1 Rv32e.sp (spVarByte n b) (slot_address r hn.2 hb)

/-! ### Other memory -/

theorem fill_outside {a : BitVec 32} (ha : ¬InScratch spv a ∧ ¬InArray sym a) :
    w.fill sym spv m a = m a := by
  rw [Work.fill, if_neg ha.1, if_neg ha.2]

theorem Wp.lbuAt (hrd : Dest rd) {a : BitVec 32} (haddr : r.x rs + imm.signExtend 32 = a)
    (ha : ¬InScratch spv a ∧ ¬InArray sym a)
    (h : Wp sym m is Q (r.set rd hrd ((m a).setWidth 32)) w) :
    Wp sym m (Rv32e.lbu rd imm rs :: is) Q r w := by
  have hload : w.fill sym spv m a = m a := fill_outside ha
  rw [← hload] at h
  refine .cons ?_ h
  exact does_lbu (conf sym m r w) hrd.1 rs imm haddr

theorem Wp.lwAt (hrd : Dest rd) {a : BitVec 32} (haddr : r.x rs + imm.signExtend 32 = a)
    (hal : a.toNat % 4 = 0)
    (ha : ∀ k < 4, ¬InScratch spv (a + BitVec.ofNat 32 k) ∧ ¬InArray sym (a + BitVec.ofNat 32 k))
    (h : Wp sym m is Q (r.set rd hrd (loadWord m a)) w) :
    Wp sym m (Rv32e.lw rd imm rs :: is) Q r w := by
  have h0 := ha 0 (by decide)
  rw [BitVec.add_zero] at h0
  have hload : loadWord (w.fill sym spv m) a = loadWord m a := by
    rw [loadWord, loadWord, fill_outside (ha 3 (by decide)), fill_outside (ha 2 (by decide)),
      fill_outside (ha 1 (by decide)), fill_outside h0]
  rw [← hload] at h
  refine .cons ?_ h
  exact does_lw (conf sym m r w) hrd.1 rs imm haddr hal

include hs in
/-- A byte of a table. -/
theorem Wp.lookup (hrd : Dest rd) {a : BitVec 32} {y : BitVec 8} (haddr : r.x rs = a)
    (ha : sym.IsTable a) (hy : m a = y) (h : Wp sym m is Q (r.set rd hrd (y.setWidth 32)) w) :
    Wp sym m (Rv32e.lbu rd 0#12 rs :: is) Q r w := by
  have haddr' : r.x rs + (0#12).signExtend 32 = a := (BitVec.add_zero _).trans haddr
  subst hy
  exact .lbuAt hrd haddr' (hs.table a ha) h

include hs in
/-- A word of a table. -/
theorem Wp.lookupWord (hrd : Dest rd) {a v : BitVec 32} (haddr : r.x rs = a)
    (hal : a.toNat % 4 = 0) (ha : ∀ k < 4, sym.IsTable (a + BitVec.ofNat 32 k))
    (hv : loadWord m a = v) (h : Wp sym m is Q (r.set rd hrd v) w) :
    Wp sym m (Rv32e.lw rd 0#12 rs :: is) Q r w := by
  have haddr' : r.x rs + (0#12).signExtend 32 = a := (BitVec.add_zero _).trans haddr
  subst hv
  exact .lwAt hrd haddr' hal (fun k hk => hs.table _ (ha k hk)) h

/-! ### The array -/

/-- The byte of the array with number `i`. -/
def Symbols.cell (sym : Symbols) (i : BitVec 8) : BitVec 32 := sym.checkSameArray + i.setWidth 32

theorem cell_inArray (i : BitVec 8) : InArray sym (sym.cell i) := by
  have hi := i.isLt
  rw [InArray, Symbols.cell]
  bv_omega

theorem cell_number (i : BitVec 8) : (sym.cell i - sym.checkSameArray).setWidth 8 = i := by
  rw [Symbols.cell]
  apply BitVec.eq_of_toNat_eq
  have hi := i.isLt
  bv_omega

theorem eq_cell {a : BitVec 32} (ha : InArray sym a) :
    a = sym.cell ((a - sym.checkSameArray).setWidth 8) := by
  rw [InArray] at ha
  rw [Symbols.cell]
  bv_omega

include hs in
theorem fill_cell (i : BitVec 8) : w.fill sym spv m (sym.cell i) = w.same i := by
  rw [Work.fill, if_neg (hs.array _ (cell_inArray i)), if_pos (cell_inArray i), cell_number]

include hs in
theorem storeByte_cell (i : BitVec 8) (y : BitVec 8) :
    Function.update (w.fill sym spv m) (sym.cell i) y =
      { w with same := Function.update w.same i y }.fill sym spv m := by
  funext a
  rw [Function.update_apply]
  by_cases ha : a = sym.cell i
  · subst ha
    rw [if_pos rfl, fill_cell hs]
    exact (Function.update_self i y w.same).symm
  · rw [if_neg ha]
    by_cases h1 : InScratch spv a
    · simp only [Work.fill, if_pos h1]
    · by_cases h2 : InArray sym a
      · have hne : (a - sym.checkSameArray).setWidth 8 ≠ i := fun he => ha (he ▸ eq_cell h2)
        simp only [Work.fill, if_neg h1, if_pos h2, Function.update_of_ne hne]
      · simp only [Work.fill, if_neg h1, if_neg h2]

include hs in
theorem Wp.sbCell {i : BitVec 8} (haddr : r.x rt = sym.cell i)
    (h : Wp sym m is Q r { w with same := Function.update w.same i ((r.x rs).extractLsb' 0 8) }) :
    Wp sym m (Rv32e.sb rs 0#12 rt :: is) Q r w := by
  have haddr' : r.x rt + (0#12).signExtend 32 = sym.cell i := (BitVec.add_zero _).trans haddr
  refine .cons ?_ h
  rw [conf, conf, ← storeByte_cell hs]
  exact does_sb (conf sym m r w) rt rs 0#12 haddr'

include hs in
theorem Wp.lbuCell (hrd : Dest rd) {i : BitVec 8} (haddr : r.x rt = sym.cell i)
    (h : Wp sym m is Q (r.set rd hrd ((w.same i).setWidth 32)) w) :
    Wp sym m (Rv32e.lbu rd 0#12 rt :: is) Q r w := by
  have haddr' : r.x rt + (0#12).signExtend 32 = sym.cell i := (BitVec.add_zero _).trans haddr
  have hload : w.fill sym spv m (sym.cell i) = w.same i := fill_cell hs i
  rw [← hload] at h
  refine .cons ?_ h
  exact does_lbu (conf sym m r w) hrd.1 rt 0#12 haddr'

end Wp

end Minirv
