import Mathlib.Algebra.Group.Int.Defs
import AiOsoc.Minirv.Macros

/-!
# Scratch memory and tables

The memory as the macros see it: seven words below the stack pointer and an array
that they write, tables that they only read, and the rest. A line of a macro is
described by what it does to the registers and to the scratch words.
-/

namespace Minirv

set_option autoImplicit false

open Rv32e ByteMemory

/-! ## Bytes of a word -/

def byteAt (v : BitVec 32) (b : Nat) : BitVec 8 := v.extractLsb' (8 * b) 8

def ofBytes (b3 b2 b1 b0 : BitVec 8) : BitVec 32 := b3 ++ b2 ++ b1 ++ b0

def setByte (v : BitVec 32) (b : Nat) (y : BitVec 8) : BitVec 32 :=
  ofBytes (if b = 3 then y else byteAt v 3) (if b = 2 then y else byteAt v 2)
    (if b = 1 then y else byteAt v 1) (if b = 0 then y else byteAt v 0)

section Bytes
variable (v : BitVec 32) (b3 b2 b1 b0 : BitVec 8)

theorem byteAt_ofBytes_0 : byteAt (ofBytes b3 b2 b1 b0) 0 = b0 := by
  apply BitVec.eq_of_getLsbD_eq
  intro i hi
  simp only [byteAt, ofBytes, BitVec.getLsbD_extractLsb', BitVec.getLsbD_append]
  grind

theorem byteAt_ofBytes_1 : byteAt (ofBytes b3 b2 b1 b0) 1 = b1 := by
  apply BitVec.eq_of_getLsbD_eq
  intro i hi
  simp only [byteAt, ofBytes, BitVec.getLsbD_extractLsb', BitVec.getLsbD_append]
  grind

theorem byteAt_ofBytes_2 : byteAt (ofBytes b3 b2 b1 b0) 2 = b2 := by
  apply BitVec.eq_of_getLsbD_eq
  intro i hi
  simp only [byteAt, ofBytes, BitVec.getLsbD_extractLsb', BitVec.getLsbD_append]
  grind

theorem byteAt_ofBytes_3 : byteAt (ofBytes b3 b2 b1 b0) 3 = b3 := by
  apply BitVec.eq_of_getLsbD_eq
  intro i hi
  simp only [byteAt, ofBytes, BitVec.getLsbD_extractLsb', BitVec.getLsbD_append]
  grind

theorem ofBytes_byteAt : ofBytes (byteAt v 3) (byteAt v 2) (byteAt v 1) (byteAt v 0) = v := by
  apply BitVec.eq_of_getLsbD_eq
  intro i hi
  simp only [byteAt, ofBytes, BitVec.getLsbD_extractLsb', BitVec.getLsbD_append]
  grind

theorem byteAt_setByte (b : Nat) (y : BitVec 8) {k : Nat} (hk : k < 4) :
    byteAt (setByte v b y) k = if b = k then y else byteAt v k := by
  obtain rfl | rfl | rfl | rfl : k = 0 ∨ k = 1 ∨ k = 2 ∨ k = 3 := by omega
  · exact byteAt_ofBytes_0 ..
  · exact byteAt_ofBytes_1 ..
  · exact byteAt_ofBytes_2 ..
  · exact byteAt_ofBytes_3 ..

/-- Writing all bytes of a word. -/
theorem setByte_all (y3 y2 y1 y0 : BitVec 8) :
    setByte (setByte (setByte (setByte v 3 y3) 2 y2) 1 y1) 0 y0 = ofBytes y3 y2 y1 y0 := by
  have h : ∀ k < 4, byteAt (setByte (setByte (setByte (setByte v 3 y3) 2 y2) 1 y1) 0 y0) k =
      if 0 = k then y0 else if 1 = k then y1 else if 2 = k then y2 else if 3 = k then y3
      else byteAt v k := by
    intro k hk
    rw [byteAt_setByte _ _ _ hk, byteAt_setByte _ _ _ hk, byteAt_setByte _ _ _ hk,
      byteAt_setByte _ _ _ hk]
  rw [← ofBytes_byteAt (setByte _ 0 y0), h 3 (by decide), h 2 (by decide), h 1 (by decide),
    h 0 (by decide)]
  rfl

theorem low_setWidth (y : BitVec 8) : (y.setWidth 32).extractLsb' 0 8 = y := by
  apply BitVec.eq_of_toNat_eq
  have hy := y.isLt
  rw [BitVec.extractLsb'_toNat, BitVec.toNat_setWidth, Nat.shiftRight_zero]
  omega

end Bytes

/-! ## The scratch words -/

structure Work where
  word : Nat → BitVec 32
  same : BitVec 8 → BitVec 8

def Work.setWord (w : Work) (n : Nat) (v : BitVec 32) : Work :=
  { w with word := Function.update w.word n v }

/-- Only the scratch words in `ss` have changed. -/
structure Work.Kept (ss : List Nat) (w w' : Work) : Prop where
  same : w'.same = w.same
  word : ∀ n, n ∉ ss → w'.word n = w.word n

theorem Work.Kept.refl (ss : List Nat) (w : Work) : Kept ss w w := ⟨rfl, fun _ _ => rfl⟩

theorem Work.Kept.set {ss : List Nat} {w w' : Work} (h : Kept ss w w') {n : Nat} (hn : n ∈ ss)
    (v : BitVec 32) : Kept ss w (w'.setWord n v) := by
  refine ⟨h.same, ?_⟩
  intro k hk
  have hne : k ≠ n := fun he => hk (he ▸ hn)
  rw [← h.word k hk]
  exact Function.update_of_ne hne ..

theorem Work.Kept.trans {ss ts : List Nat} {w w' w'' : Work} (h : Kept ss w w')
    (h' : Kept ts w' w'') (hts : ∀ n ∈ ts, n ∈ ss) : Kept ss w w'' := by
  refine ⟨h'.same.trans h.same, ?_⟩
  intro k hk
  rw [h'.word k fun ht => hk (hts k ht), h.word k hk]

section SetWord
variable (w : Work) (n : Nat) (v : BitVec 32)

@[simp] theorem Work.setWord_self : (w.setWord n v).word n = v := Function.update_self ..

@[simp] theorem Work.setWord_setWord (v' : BitVec 32) :
    (w.setWord n v').setWord n v = w.setWord n v := by
  rw [setWord, setWord, setWord, Function.update_idem]

@[simp] theorem Work.setWord_same : (w.setWord n v).same = w.same := rfl

@[simp] theorem Work.setWord_of_ne {k : Nat} (hk : k ≠ n) : (w.setWord n v).word k = w.word k :=
  Function.update_of_ne hk ..

end SetWord

/-- The place of an address in the words below `spv`. -/
def place (spv a : BitVec 32) : Nat := (a - (spv - 28#32)).toNat

def InScratch (spv a : BitVec 32) : Prop := place spv a < 28

instance (spv a : BitVec 32) : Decidable (InScratch spv a) := inferInstanceAs (Decidable (_ < _))

def InArray (sym : Symbols) (a : BitVec 32) : Prop := (a - sym.checkSameArray).toNat < 256

instance (sym : Symbols) (a : BitVec 32) : Decidable (InArray sym a) :=
  inferInstanceAs (Decidable (_ < _))

/-- The memory with the scratch words and the array in place. -/
def Work.fill (w : Work) (sym : Symbols) (spv : BitVec 32) (m : Memory) : Memory := fun a =>
  if InScratch spv a then byteAt (w.word (7 - place spv a / 4)) (place spv a % 4)
  else if InArray sym a then w.same ((a - sym.checkSameArray).setWidth 8)
  else m a

/-- The address of a byte of a scratch word. -/
def slot (spv : BitVec 32) (n b : Nat) : BitVec 32 := spv + BitVec.ofInt 32 (-(n : Int) * 4 + b)

section Slots
variable {sym : Symbols} {spv : BitVec 32} {m : Memory} (w : Work) {n b : Nat}

theorem place_slot (hn : 1 ≤ n ∧ n ≤ 7) (hb : b < 4) :
    place spv (slot spv n b) = 28 - 4 * n + b := by
  have hsub : spv + BitVec.ofInt 32 (-(n : Int) * 4 + b) - (spv - 28#32) =
      BitVec.ofNat 32 (28 - 4 * n + b) := by
    have hoff : BitVec.ofNat 32 (28 - 4 * n + b) =
        BitVec.ofInt 32 (-(n : Int) * 4 + b) + 28#32 := by
      rw [← BitVec.ofInt_natCast, ← BitVec.ofInt_ofNat, ← BitVec.ofInt_add]
      congr 1
      omega
    rw [hoff]
    bv_omega
  rw [place, slot, hsub, BitVec.toNat_ofNat]
  omega

theorem slot_zero_add (k : Nat) : slot spv n 0 + BitVec.ofNat 32 k = slot spv n k := by
  rw [slot, slot, BitVec.add_assoc, ← BitVec.ofInt_natCast, ← BitVec.ofInt_add]
  congr 2
  omega

theorem place_inj {a a' : BitVec 32} : place spv a = place spv a' ↔ a = a' := by
  rw [place, place, BitVec.toNat_inj]
  constructor
  · intro h
    bv_omega
  · rintro rfl
    rfl

theorem fill_slot (hn : 1 ≤ n ∧ n ≤ 7) (hb : b < 4) :
    w.fill sym spv m (slot spv n b) = byteAt (w.word n) b := by
  have hp : place spv (slot spv n b) = _ := place_slot hn hb
  rw [Work.fill, if_pos (by rw [InScratch, hp]; omega), hp]
  congr 2
  · omega
  · omega

theorem loadWord_fill (hn : 1 ≤ n ∧ n ≤ 7) :
    loadWord (w.fill sym spv m) (slot spv n 0) = w.word n := by
  rw [loadWord, slot_zero_add 3, slot_zero_add 2, slot_zero_add 1, fill_slot w hn (by decide),
    fill_slot w hn (by decide), fill_slot w hn (by decide), fill_slot w hn (by decide)]
  exact ofBytes_byteAt _

theorem storeByte_fill (hn : 1 ≤ n ∧ n ≤ 7) (hb : b < 4) (y : BitVec 8) :
    Function.update (w.fill sym spv m) (slot spv n b) y =
      (w.setWord n (setByte (w.word n) b y)).fill sym spv m := by
  have hp : place spv (slot spv n b) = _ := place_slot hn hb
  funext a
  rw [Function.update_apply]
  by_cases ha : InScratch spv a
  · have ha' : place spv a < 28 := ha
    simp only [Work.fill, if_pos ha, Work.setWord, Function.update_apply]
    by_cases heq : a = slot spv n b
    · have hpa : place spv a = 28 - 4 * n + b := by rw [heq, hp]
      have h1 : 7 - place spv a / 4 = n := by omega
      have h2 : place spv a % 4 = b := by omega
      rw [if_pos heq, if_pos h1, h2, byteAt_setByte _ _ _ hb, if_pos rfl]
    · have hne : place spv a ≠ 28 - 4 * n + b := fun h => heq (place_inj.mp (h.trans hp.symm))
      rw [if_neg heq]
      by_cases h1 : 7 - place spv a / 4 = n
      · rw [if_pos h1, byteAt_setByte _ _ _ (by omega), if_neg (by omega), h1]
      · rw [if_neg h1]
  · have hne : a ≠ slot spv n b := by
      rintro rfl
      exact ha (by rw [InScratch, hp]; omega)
    simp only [Work.fill, if_neg ha, if_neg hne, Work.setWord]

theorem storeWord_fill (hn : 1 ≤ n ∧ n ≤ 7) (v : BitVec 32) :
    storeWord (w.fill sym spv m) (slot spv n 0) v = (w.setWord n v).fill sym spv m := by
  have hp : place spv (slot spv n 0) = _ := place_slot hn (by decide)
  funext a
  have hdiff : (a - slot spv n 0).toNat < 4 ↔
      28 - 4 * n ≤ place spv a ∧ place spv a < 32 - 4 * n := by
    rw [place] at hp ⊢
    bv_omega
  have hval : 28 - 4 * n ≤ place spv a ∧ place spv a < 32 - 4 * n →
      (a - slot spv n 0).toNat = place spv a - (28 - 4 * n) := by
    intro h
    rw [place] at hp h ⊢
    bv_omega
  rw [storeWord]
  by_cases hin : 28 - 4 * n ≤ place spv a ∧ place spv a < 32 - 4 * n
  · have ha : InScratch spv a := by
      rw [InScratch]
      omega
    have h1 : 7 - place spv a / 4 = n := by omega
    have h2 : place spv a - (28 - 4 * n) = place spv a % 4 := by omega
    rw [if_pos (hdiff.mpr hin), hval hin, h2, Work.fill, if_pos ha, h1, Work.setWord_self]
    rfl
  · rw [if_neg fun h => hin (hdiff.mp h)]
    by_cases ha : InScratch spv a
    · have ha' : place spv a < 28 := ha
      have h1 : 7 - place spv a / 4 ≠ n := by omega
      simp only [Work.fill, if_pos ha, Work.setWord, Function.update_of_ne h1]
    · simp only [Work.fill, if_neg ha, Work.setWord]

end Slots

/-! ## The tables -/

/-- The byte `k` of a table that `gen-lut.c` writes. -/
def genTable (col entrySize : Nat) (expr : Nat → Nat → BitVec 32) (k : Nat) : BitVec 8 :=
  byteAt (expr (k / entrySize / col) (k / entrySize % col)) (k % entrySize)

/-- The byte `k` of `lut.bin`. -/
def lutBin (k : Nat) : BitVec 8 :=
  if k < 0x10000 then
    genTable 256 1 (fun j i => BitVec.ofNat 32 j &&& BitVec.ofNat 32 i) k
  else if k < 0x20000 then
    genTable 256 1 (fun j i => BitVec.ofNat 32 j ||| BitVec.ofNat 32 i) (k - 0x10000)
  else if k < 0x30000 then
    genTable 256 1 (fun j i => BitVec.ofNat 32 j ^^^ BitVec.ofNat 32 i) (k - 0x20000)
  else if k < 0x38000 then
    genTable 256 4 (fun j i => BitVec.ofNat 32 i <<< j) (k - 0x30000)
  else if k < 0x40000 then
    genTable 256 4 (fun j i => (BitVec.ofNat 32 i <<< 24) >>> j) (k - 0x38000)
  else genTable 256 4 (fun j i => (BitVec.ofNat 32 i <<< 24).sshiftRight j) (k - 0x40000)

/-- The tables are in memory. -/
structure Tables (sym : Symbols) (m : Memory) : Prop where
  sameResult : ∀ i < 8, m (sym.sameResultTable + BitVec.ofNat 32 i) =
    [1#8, 0#8, 0#8, 0#8, 0#8, 0#8, 0#8, 0#8].getD i 0#8
  check8bit0 : ∀ i < 256, m (sym.check8bit0Table + BitVec.ofNat 32 i) = if i = 0 then 0#8 else 1#8
  slt1 : ∀ i < 8, m (sym.slt1Table + BitVec.ofNat 32 i) =
    [0#8, 1#8, 0#8, 0#8, 1#8, 1#8, 0#8, 1#8].getD i 0#8
  sltu1 : ∀ i < 8, m (sym.sltu1Table + BitVec.ofNat 32 i) =
    [0#8, 1#8, 1#8, 1#8, 0#8, 0#8, 0#8, 1#8].getD i 0#8
  or1 : ∀ i < 4, m (sym.or1Table + BitVec.ofNat 32 i) = [0#8, 1#8, 1#8, 1#8].getD i 0#8
  lut : ∀ i < 0x48000, m (sym.logicShiftTable + BitVec.ofNat 32 i) = lutBin i
  aligned : sym.logicShiftTable.toNat % 4 = 0

/-- The addresses of the tables. -/
def Symbols.IsTable (sym : Symbols) (a : BitVec 32) : Prop :=
  (a - sym.sameResultTable).toNat < 8 ∨ (a - sym.check8bit0Table).toNat < 256 ∨
    (a - sym.slt1Table).toNat < 8 ∨ (a - sym.sltu1Table).toNat < 8 ∨
    (a - sym.or1Table).toNat < 4 ∨ (a - sym.logicShiftTable).toNat < 0x48000

instance (sym : Symbols) (a : BitVec 32) : Decidable (sym.IsTable a) :=
  inferInstanceAs (Decidable (_ ∨ _))

/-! ## Looking up -/

section Lookup
variable {sym : Symbols} {m : Memory}

theorem genTable_byte (expr : Nat → Nat → BitVec 32) {i : Nat} (j : Nat) (hi : i < 256) :
    genTable 256 1 expr (256 * j + i) = byteAt (expr j i) 0 := by
  have h1 : (256 * j + i) / 1 / 256 = j := by omega
  have h2 : (256 * j + i) / 1 % 256 = i := by omega
  have h3 : (256 * j + i) % 1 = 0 := by omega
  rw [genTable, h1, h2, h3]

theorem genTable_word (expr : Nat → Nat → BitVec 32) {i b : Nat} (j : Nat) (hi : i < 256)
    (hb : b < 4) : genTable 256 4 expr (4 * (256 * j + i) + b) = byteAt (expr j i) b := by
  have h1 : (4 * (256 * j + i) + b) / 4 / 256 = j := by omega
  have h2 : (4 * (256 * j + i) + b) / 4 % 256 = i := by omega
  have h3 : (4 * (256 * j + i) + b) % 4 = b := by omega
  rw [genTable, h1, h2, h3]

/-- The addresses of a row and a column in the tables of bytes. -/
theorem row_column (j i : BitVec 8) :
    (j ++ i).setWidth 32 = BitVec.ofNat 32 (256 * j.toNat + i.toNat) := by
  have hj := j.isLt
  have hi := i.isLt
  apply BitVec.eq_of_toNat_eq
  have happ : (j ++ i).toNat = 256 * j.toNat + i.toNat := by
    rw [BitVec.toNat_append, Nat.shiftLeft_eq, ← Nat.shiftLeft_eq,
      ← Nat.shiftLeft_add_eq_or_of_lt hi, Nat.shiftLeft_eq]
    omega
  rw [BitVec.toNat_setWidth, happ, BitVec.toNat_ofNat]

theorem add_ofNat (a : BitVec 32) (k l : Nat) :
    a + BitVec.ofNat 32 k + BitVec.ofNat 32 l = a + BitVec.ofNat 32 (k + l) := by
  rw [BitVec.add_assoc, ← BitVec.ofNat_add]

theorem or8Table_eq : sym.or8Table = sym.logicShiftTable + BitVec.ofNat 32 0x10000 := rfl

theorem xor8Table_eq : sym.xor8Table = sym.logicShiftTable + BitVec.ofNat 32 0x20000 :=
  add_ofNat _ 0x10000 0x10000

theorem sll8Table_eq : sym.sll8Table = sym.logicShiftTable + BitVec.ofNat 32 0x30000 := by
  rw [Symbols.sll8Table, xor8Table_eq]
  exact add_ofNat _ 0x20000 0x10000

theorem srl8Table_eq : sym.srl8Table = sym.logicShiftTable + BitVec.ofNat 32 0x38000 := by
  rw [Symbols.srl8Table, sll8Table_eq]
  exact add_ofNat _ 0x30000 0x8000

theorem sra8Table_eq : sym.sra8Table = sym.logicShiftTable + BitVec.ofNat 32 0x40000 := by
  rw [Symbols.sra8Table, srl8Table_eq]
  exact add_ofNat _ 0x38000 0x8000

theorem isTable_lut {k : Nat} (hk : k < 0x48000) :
    sym.IsTable (sym.logicShiftTable + BitVec.ofNat 32 k) := by
  refine Or.inr (Or.inr (Or.inr (Or.inr (Or.inr ?_))))
  bv_omega

theorem byteAt_ofNat (v : Nat) : byteAt (BitVec.ofNat 32 v) 0 = BitVec.ofNat 8 v := by
  apply BitVec.eq_of_toNat_eq
  simp only [byteAt, BitVec.extractLsb'_toNat, BitVec.toNat_ofNat]
  omega

theorem ofNat_toNat_low (i : BitVec 8) : byteAt (BitVec.ofNat 32 i.toNat) 0 = i := by
  rw [byteAt_ofNat, BitVec.ofNat_toNat, BitVec.setWidth_eq]

section Logic
variable (ht : Tables sym m) (j i : BitVec 8)
include ht

theorem lookup_and : m (sym.and8Table + (j ++ i).setWidth 32) = j &&& i := by
  have hj := j.isLt
  have hi := i.isLt
  rw [Symbols.and8Table, row_column, ht.lut _ (by omega), lutBin, if_pos (by omega),
    genTable_byte _ _ hi]
  simp only [byteAt, BitVec.extractLsb'_and]
  exact congrArg₂ (· &&& ·) (ofNat_toNat_low j) (ofNat_toNat_low i)

theorem lookup_or : m (sym.or8Table + (j ++ i).setWidth 32) = j ||| i := by
  have hj := j.isLt
  have hi := i.isLt
  rw [or8Table_eq, row_column, add_ofNat, ht.lut _ (by omega), lutBin, if_neg (by omega),
    if_pos (by omega), Nat.add_sub_cancel_left, genTable_byte _ _ hi]
  simp only [byteAt, BitVec.extractLsb'_or]
  exact congrArg₂ (· ||| ·) (ofNat_toNat_low j) (ofNat_toNat_low i)

theorem lookup_xor : m (sym.xor8Table + (j ++ i).setWidth 32) = j ^^^ i := by
  have hj := j.isLt
  have hi := i.isLt
  rw [xor8Table_eq, row_column, add_ofNat, ht.lut _ (by omega), lutBin, if_neg (by omega),
    if_neg (by omega), if_pos (by omega), Nat.add_sub_cancel_left, genTable_byte _ _ hi]
  simp only [byteAt, BitVec.extractLsb'_xor]
  exact congrArg₂ (· ^^^ ·) (ofNat_toNat_low j) (ofNat_toNat_low i)

end Logic

/-! The rows of the tables of words, one for each amount. -/

section Shift
variable (ht : Tables sym m) {j : Nat} (hj : j < 32) (i : BitVec 8)

/-- The address of an entry, as the macros compute it. -/
def entry (table : BitVec 32) (j : Nat) (i : BitVec 8) : BitVec 32 :=
  table + BitVec.ofNat 32 (j <<< 10) + i.setWidth 32 <<< 2

theorem entry_eq (j : Nat) (off : Nat) :
    entry (sym.logicShiftTable + BitVec.ofNat 32 off) j i =
      sym.logicShiftTable + BitVec.ofNat 32 (off + 4 * (256 * j + i.toNat)) := by
  have hi := i.isLt
  have hcol : i.setWidth 32 <<< 2 = BitVec.ofNat 32 (4 * i.toNat) := by
    apply BitVec.eq_of_toNat_eq
    rw [BitVec.toNat_shiftLeft, BitVec.toNat_setWidth, BitVec.toNat_ofNat, Nat.shiftLeft_eq]
    omega
  rw [entry, hcol, add_ofNat, add_ofNat, Nat.shiftLeft_eq]
  congr 2
  omega

theorem loadWord_lut {k : Nat} {v : BitVec 32} (ht : Tables sym m) (hk : k + 3 < 0x48000)
    (hbytes : ∀ b < 4, lutBin (k + b) = byteAt v b) :
    loadWord m (sym.logicShiftTable + BitVec.ofNat 32 k) = v := by
  have hb : ∀ b < 4, m (sym.logicShiftTable + BitVec.ofNat 32 k + BitVec.ofNat 32 b) =
      byteAt v b := by
    intro b hb
    rw [add_ofNat, ht.lut _ (by omega), hbytes b hb]
  have h0 := hb 0 (by decide)
  rw [BitVec.add_zero] at h0
  rw [loadWord, hb 3 (by decide), hb 2 (by decide), hb 1 (by decide), h0]
  exact ofBytes_byteAt v

theorem ofNat_toNat_word : BitVec.ofNat 32 i.toNat = i.setWidth 32 := BitVec.ofNat_toNat ..

include ht hj

theorem lookup_sll : loadWord m (entry sym.sll8Table j i) = i.setWidth 32 <<< j := by
  have hi := i.isLt
  rw [sll8Table_eq, entry_eq]
  refine loadWord_lut ht (by omega) ?_
  intro b hb
  rw [lutBin, if_neg (by omega), if_neg (by omega), if_neg (by omega), if_pos (by omega),
    Nat.add_assoc, Nat.add_sub_cancel_left, genTable_word _ _ hi hb, ofNat_toNat_word]

theorem lookup_srl : loadWord m (entry sym.srl8Table j i) = (i.setWidth 32 <<< 24) >>> j := by
  have hi := i.isLt
  rw [srl8Table_eq, entry_eq]
  refine loadWord_lut ht (by omega) ?_
  intro b hb
  rw [lutBin, if_neg (by omega), if_neg (by omega), if_neg (by omega), if_neg (by omega),
    if_pos (by omega), Nat.add_assoc, Nat.add_sub_cancel_left, genTable_word _ _ hi hb,
    ofNat_toNat_word]

theorem lookup_sra :
    loadWord m (entry sym.sra8Table j i) = (i.setWidth 32 <<< 24).sshiftRight j := by
  have hi := i.isLt
  rw [sra8Table_eq, entry_eq]
  refine loadWord_lut ht (by omega) ?_
  intro b hb
  rw [lutBin, if_neg (by omega), if_neg (by omega), if_neg (by omega), if_neg (by omega),
    if_neg (by omega), Nat.add_assoc, Nat.add_sub_cancel_left, genTable_word _ _ hi hb,
    ofNat_toNat_word]

end Shift

end Lookup

/-! ## The sections -/

/-- The symbols, from where the two sections of the header are. -/
def Symbols.ofSections (rodata data : BitVec 32) : Symbols where
  sameResultTable := rodata
  check8bit0Table := rodata + 8#32
  slt1Table := rodata + 264#32
  sltu1Table := rodata + 272#32
  or1Table := rodata + 280#32
  logicShiftTable := rodata + 512#32
  checkSameArray := data

/-- The byte `k` of the read-only section. -/
def rodataByte (k : Nat) : BitVec 8 :=
  if k < 8 then [1#8, 0#8, 0#8, 0#8, 0#8, 0#8, 0#8, 0#8].getD k 0#8
  else if k < 264 then if k = 8 then 0#8 else 1#8
  else if k < 272 then [0#8, 1#8, 0#8, 0#8, 1#8, 1#8, 0#8, 1#8].getD (k - 264) 0#8
  else if k < 280 then [0#8, 1#8, 1#8, 1#8, 0#8, 0#8, 0#8, 1#8].getD (k - 272) 0#8
  else if k < 284 then [0#8, 1#8, 1#8, 1#8].getD (k - 280) 0#8
  else if k < 512 then 0#8
  else lutBin (k - 512)

/-- A memory with the read-only section has the tables. -/
theorem tables_of_rodata {rodata data : BitVec 32} {m : Memory} (hal : rodata.toNat % 4 = 0)
    (hm : ∀ k < 512 + 0x48000, m (rodata + BitVec.ofNat 32 k) = rodataByte k) :
    Tables (.ofSections rodata data) m where
  sameResult i hi := by
    rw [Symbols.ofSections, hm _ (by omega), rodataByte, if_pos hi]
  check8bit0 i hi := by
    have ha : rodata + 8#32 + BitVec.ofNat 32 i = rodata + BitVec.ofNat 32 (8 + i) :=
      add_ofNat _ 8 i
    rw [Symbols.ofSections, ha, hm _ (by omega), rodataByte, if_neg (by omega), if_pos (by omega)]
    exact if_congr (by omega) rfl rfl
  slt1 i hi := by
    have ha : rodata + 264#32 + BitVec.ofNat 32 i = rodata + BitVec.ofNat 32 (264 + i) :=
      add_ofNat _ 264 i
    rw [Symbols.ofSections, ha, hm _ (by omega), rodataByte, if_neg (by omega), if_neg (by omega),
      if_pos (by omega), Nat.add_sub_cancel_left]
  sltu1 i hi := by
    have ha : rodata + 272#32 + BitVec.ofNat 32 i = rodata + BitVec.ofNat 32 (272 + i) :=
      add_ofNat _ 272 i
    rw [Symbols.ofSections, ha, hm _ (by omega), rodataByte, if_neg (by omega), if_neg (by omega),
      if_neg (by omega), if_pos (by omega), Nat.add_sub_cancel_left]
  or1 i hi := by
    have ha : rodata + 280#32 + BitVec.ofNat 32 i = rodata + BitVec.ofNat 32 (280 + i) :=
      add_ofNat _ 280 i
    rw [Symbols.ofSections, ha, hm _ (by omega), rodataByte, if_neg (by omega), if_neg (by omega),
      if_neg (by omega), if_neg (by omega), if_pos (by omega), Nat.add_sub_cancel_left]
  lut i hi := by
    have ha : rodata + 512#32 + BitVec.ofNat 32 i = rodata + BitVec.ofNat 32 (512 + i) :=
      add_ofNat _ 512 i
    rw [Symbols.ofSections, ha, hm _ (by omega), rodataByte, if_neg (by omega), if_neg (by omega),
      if_neg (by omega), if_neg (by omega), if_neg (by omega), if_neg (by omega),
      Nat.add_sub_cancel_left]
  aligned := by
    rw [Symbols.ofSections, BitVec.toNat_add, BitVec.toNat_ofNat]
    omega

/-- What the macros rely on: an aligned stack pointer, and scratch words, array and
tables that do not overlap. -/
structure Site (sym : Symbols) (spv : BitVec 32) (m : Memory) : Prop where
  tables : Tables sym m
  aligned : spv.toNat % 4 = 0
  array : ∀ a, InArray sym a → ¬InScratch spv a
  table : ∀ a, sym.IsTable a → ¬InScratch spv a ∧ ¬InArray sym a

end Minirv
