import AiOsoc.CInt
import AiOsoc.Nemu.Decode
import Mathlib.Algebra.Group.Int.Defs

/-!
# Multiplication and division in the reference emulator

The bodies of the M extension as the C expressions of
`nemu/src/isa/riscv32/inst.c`, with the conversions C inserts and the operations
it leaves undefined. They are always defined, they are what `execBody` writes to
`rd`, and together they give the exact product, quotient and remainder.
-/

namespace Nemu

set_option autoImplicit false

open CInt

inductive MulDiv where
  | mul | mulh | mulhsu | mulhu | div | divu | rem | remu
  deriving Repr, DecidableEq

namespace MulDiv

def name : MulDiv → Name
  | mul => .mul
  | mulh => .mulh
  | mulhsu => .mulhsu
  | mulhu => .mulhu
  | div => .div
  | divu => .divu
  | rem => .rem
  | remu => .remu

def funct3 : MulDiv → BitVec 3
  | mul => 0b000#3
  | mulh => 0b001#3
  | mulhsu => 0b010#3
  | mulhu => 0b011#3
  | div => 0b100#3
  | divu => 0b101#3
  | rem => 0b110#3
  | remu => 0b111#3

/-- The word is an instruction of the M extension. -/
structure Encoded (op : MulDiv) (inst : BitVec 32) : Prop where
  opcode : Rv32e.opcode inst = 0b0110011#7
  funct3 : Rv32e.funct3 inst = op.funct3
  funct7 : Rv32e.funct7 inst = 0b0000001#7

end MulDiv

/-! ## The C expressions -/

/-- A `word_t`. -/
def word (v : BitVec 32) : Value u32 := ⟨v⟩

/-- `(sword_t)v`. -/
def sword (v : BitVec 32) : Value i32 := (word v).convert i32

/-- The value an assignment to a `word_t` stores. -/
def toWord {t : IntType} (v : Value t) : BitVec 32 := (v.convert u32).bits

/-- The body of a pattern, up to the assignment. -/
def MulDiv.body (op : MulDiv) (src1 src2 : BitVec 32) : Option (BitVec 32) :=
  match op with
  | mul => ((word src1).mul (word src2)).map toWord
  | mulh => do
    let product ← ((sword src1).convert i64).mul ((sword src2).convert i64)
    (product.shr 32).map toWord
  | mulhsu => do
    let product ← ((sword src1).convert i64).mul ((word src2).convert u64)
    (product.shr 32).map toWord
  | mulhu => do
    let product ← ((word src1).convert u64).mul ((word src2).convert u64)
    (product.shr 32).map toWord
  | div =>
    if src2 = 0#32 then some (-1#32)
    else if src1 = 0x80000000#32 ∧ src2 = -1#32 then some src1
    else ((sword src1).div (sword src2)).map toWord
  | divu => if src2 = 0#32 then some (-1#32) else ((word src1).div (word src2)).map toWord
  | rem =>
    if src2 = 0#32 then some src1
    else if src1 = 0x80000000#32 ∧ src2 = -1#32 then some 0#32
    else ((sword src1).rem (sword src2)).map toWord
  | remu => if src2 = 0#32 then some src1 else ((word src1).rem (word src2)).map toWord

/-! ## Values of the operands -/

/-- The upper half of a product of 64 bits. -/
def highWord (z : Int) : BitVec 32 := BitVec.ofInt 32 (z / 2 ^ 32)

/-- What the bodies compute. -/
def MulDiv.value (op : MulDiv) (a b : BitVec 32) : BitVec 32 :=
  match op with
  | mul => BitVec.ofInt 32 (a.toNat * b.toNat)
  | mulh => highWord (a.toInt * b.toInt)
  | mulhsu => highWord (a.toInt * b.toNat)
  | mulhu => highWord (a.toNat * b.toNat)
  | div =>
    if b = 0#32 then -1#32 else if a = 0x80000000#32 ∧ b = -1#32 then a else a.sdiv b
  | divu => if b = 0#32 then -1#32 else a / b
  | rem =>
    if b = 0#32 then a else if a = 0x80000000#32 ∧ b = -1#32 then 0#32 else a.srem b
  | remu => if b = 0#32 then a else a % b

section Operands
variable (a : BitVec 32)

theorem toInt_bounds : -2 ^ 31 ≤ a.toInt ∧ a.toInt < 2 ^ 31 :=
  ⟨BitVec.le_toInt a, BitVec.toInt_lt⟩

@[simp] theorem word_val : (word a).val = a.toNat := rfl

@[simp] theorem sword_val : (sword a).val = a.toInt := by
  have h : sword a = ⟨a⟩ := by
    rw [sword, Value.convert, word_val, Value.ofInt, BitVec.ofInt_natCast]
    simp [i32]
  rw [h]
  rfl

@[simp] theorem sword_i64_val : ((sword a).convert i64).val = a.toInt := by
  have h := toInt_bounds a
  rw [val_convert, sword_val]
  rw [sword_val]
  exact ⟨by simp only [i64]; omega, by simp only [i64]; omega⟩

@[simp] theorem word_u64_val : ((word a).convert u64).val = a.toNat := by
  have h := a.isLt
  rw [val_convert, word_val]
  exact ⟨by simp only [word_val]; omega, by simp only [word_val, u64]; omega⟩

end Operands

theorem toWord_eq {t : IntType} (v : Value t) : toWord v = BitVec.ofInt 32 v.val := rfl

theorem toWord_ofInt {t : IntType} (h : 32 ≤ t.width) (z : Int) :
    toWord (Value.ofInt t z) = BitVec.ofInt 32 z := by
  obtain ⟨k, hk⟩ := exists_val_ofInt t z
  obtain ⟨n, hn⟩ := Nat.exists_eq_add_of_le h
  have hpow : (2 : Int) ^ t.width * k = 2 ^ 32 * (2 ^ n * k) := by
    rw [hn, Int.pow_add, Int.mul_assoc]
  apply BitVec.eq_of_toNat_eq
  rw [toWord_eq, hk, hpow, BitVec.toNat_ofInt, BitVec.toNat_ofInt]
  omega

theorem toWord_shr {t : IntType} (h : t.width = 64) (z : Int) :
    ((Value.ofInt t z).shr 32).map toWord = some (highWord z) := by
  obtain ⟨k, hk⟩ := exists_val_ofInt t z
  rw [Value.shr, if_pos (by omega), Option.map_some, toWord_ofInt (by omega), hk, h, highWord]
  congr 1
  apply BitVec.eq_of_toNat_eq
  rw [BitVec.toNat_ofInt, BitVec.toNat_ofInt, Int.shiftRight_eq_div_pow]
  omega

/-! ## Bodies -/

section Products
variable (a b : BitVec 32)

theorem body_mul : MulDiv.mul.body a b = some (MulDiv.mul.value a b) := by
  rw [MulDiv.body, mul_of_unsigned rfl, Option.map_some, toWord_ofInt (by decide), word_val,
    word_val, MulDiv.value]

theorem body_mulh : MulDiv.mulh.body a b = some (MulDiv.mulh.value a b) := by
  have hle := BitVec.toInt_mul_toInt_le (x := a) (y := b)
  have hge := BitVec.le_toInt_mul_toInt (x := a) (y := b)
  have hrep : i64.Represents (a.toInt * b.toInt) :=
    ⟨by simp only [i64]; omega, by simp only [i64]; omega⟩
  have hmul := mul_of_represents (x := (sword a).convert i64) (y := (sword b).convert i64)
    (represents_val _) (represents_val _) (by simp only [sword_i64_val]; exact hrep)
  rw [MulDiv.body, hmul, sword_i64_val, sword_i64_val]
  exact toWord_shr (t := i64.common i64) rfl _

theorem body_mulhsu : MulDiv.mulhsu.body a b = some (MulDiv.mulhsu.value a b) := by
  rw [MulDiv.body, mul_of_unsigned rfl, sword_i64_val, word_u64_val]
  exact toWord_shr (t := i64.common u64) rfl _

theorem body_mulhu : MulDiv.mulhu.body a b = some (MulDiv.mulhu.value a b) := by
  rw [MulDiv.body, mul_of_unsigned rfl, word_u64_val, word_u64_val]
  exact toWord_shr (t := u64.common u64) rfl _

end Products

section Quotients
variable {a b : BitVec 32}

theorem toInt_ne_zero (hb : b ≠ 0#32) : b.toInt ≠ 0 := by
  intro h
  exact hb (BitVec.eq_of_toInt_eq h)

theorem toNat_ne_zero (hb : b ≠ 0#32) : (b.toNat : Int) ≠ 0 := by
  intro h
  exact hb (BitVec.eq_of_toNat_eq (by simpa using h))

theorem udiv_represented (a b : BitVec 32) : u32.Represents ((a.toNat : Int).tdiv b.toNat) := by
  rw [← Int.ofNat_tdiv, ← BitVec.toNat_udiv]
  exact represents_val (t := u32) ⟨a / b⟩

section Signed
variable (hover : ¬(a = 0x80000000#32 ∧ b = -1#32))
include hover

theorem toInt_sdiv_word : (a.sdiv b).toInt = a.toInt.tdiv b.toInt := by
  apply BitVec.toInt_sdiv_of_ne_or_ne
  have hmin : BitVec.intMin 32 = 0x80000000#32 := by decide
  rw [hmin]
  exact not_and_or.mp hover

/-- The quotient of two words is a word, but for `INT_MIN / -1`. -/
theorem tdiv_represented : i32.Represents (a.toInt.tdiv b.toInt) := by
  rw [← toInt_sdiv_word hover]
  exact represents_val (t := i32) ⟨a.sdiv b⟩

variable (hb : b ≠ 0#32)
include hb

theorem sword_div : ((sword a).div (sword b)).map toWord = some (a.sdiv b) := by
  have hdiv := div_of_represents (x := sword a) (y := sword b) (represents_val _)
    (represents_val _) (by simpa using toInt_ne_zero hb)
    (by simp only [sword_val]; exact tdiv_represented hover)
  rw [hdiv, Option.map_some, toWord_ofInt (by decide), sword_val, sword_val,
    ← toInt_sdiv_word hover, BitVec.ofInt_toInt]

theorem sword_rem : ((sword a).rem (sword b)).map toWord = some (a.srem b) := by
  have hrem := rem_of_represents (x := sword a) (y := sword b) (represents_val _)
    (represents_val _) (by simpa using toInt_ne_zero hb)
    (by simp only [sword_val]; exact tdiv_represented hover)
  rw [hrem, Option.map_some, toWord_ofInt (by decide), sword_val, sword_val,
    ← BitVec.toInt_srem, BitVec.ofInt_toInt]

end Signed

-- the case `sword_div` leaves out
example : ((sword 0x80000000#32).div (sword (-1#32))).isNone = true := by decide

section Unsigned
variable (hb : b ≠ 0#32)
include hb

theorem word_div : ((word a).div (word b)).map toWord = some (a / b) := by
  have hdiv := div_of_represents (x := word a) (y := word b) (represents_val _)
    (represents_val _) (by simpa using toNat_ne_zero hb) (udiv_represented a b)
  rw [hdiv, Option.map_some, toWord_ofInt (by decide), word_val, word_val, ← Int.ofNat_tdiv,
    BitVec.ofInt_natCast, ← BitVec.toNat_udiv, BitVec.ofNat_toNat, BitVec.setWidth_eq]

theorem word_rem : ((word a).rem (word b)).map toWord = some (a % b) := by
  have hrem := rem_of_represents (x := word a) (y := word b) (represents_val _)
    (represents_val _) (by simpa using toNat_ne_zero hb) (udiv_represented a b)
  rw [hrem, Option.map_some, toWord_ofInt (by decide), word_val, word_val, ← Int.ofNat_tmod,
    BitVec.ofInt_natCast, ← BitVec.toNat_umod, BitVec.ofNat_toNat, BitVec.setWidth_eq]

end Unsigned

end Quotients

/-- No body divides by zero or overflows a signed type. -/
theorem MulDiv.body_eq (op : MulDiv) (a b : BitVec 32) : op.body a b = some (op.value a b) := by
  cases op with
  | mul => exact body_mul a b
  | mulh => exact body_mulh a b
  | mulhsu => exact body_mulhsu a b
  | mulhu => exact body_mulhu a b
  | div =>
    rw [MulDiv.body, MulDiv.value]
    split_ifs with hb hover
    · rfl
    · rfl
    · exact sword_div hover hb
  | divu =>
    rw [MulDiv.body, MulDiv.value]
    split_ifs with hb
    · rfl
    · exact word_div hb
  | rem =>
    rw [MulDiv.body, MulDiv.value]
    split_ifs with hb hover
    · rfl
    · rfl
    · exact sword_rem hover hb
  | remu =>
    rw [MulDiv.body, MulDiv.value]
    split_ifs with hb
    · rfl
    · exact word_rem hb

/-! ## Execution -/

theorem highWord_sshiftRight (z : Int) :
    ((BitVec.ofInt 64 z).sshiftRight 32).setWidth 32 = highWord z := by
  have h := Int.bmod_add_bdiv z (2 ^ 64)
  apply BitVec.eq_of_toNat_eq
  rw [BitVec.sshiftRight, BitVec.toInt_ofInt, highWord, BitVec.toNat_setWidth, BitVec.toNat_ofInt,
    BitVec.toNat_ofInt, Int.shiftRight_eq_div_pow]
  omega

theorem highWord_ushiftRight (z : Int) :
    (BitVec.ofInt 64 z >>> 32).setWidth 32 = highWord z := by
  apply BitVec.eq_of_toNat_eq
  rw [BitVec.toNat_setWidth, BitVec.toNat_ushiftRight, highWord, BitVec.toNat_ofInt,
    BitVec.toNat_ofInt, Nat.shiftRight_eq_div_pow]
  omega

theorem ofInt_toNat (w : Nat) (a : BitVec 32) : BitVec.ofInt w a.toNat = a.setWidth w := by
  rw [BitVec.ofInt_natCast, BitVec.ofNat_toNat]

/-- The values are the ones written to `rd`. -/
theorem execBody_muldiv (cfg : Config) (op : MulDiv) (o : Operands) (e : Exec) :
    execBody cfg op.name o e = .ok (e.setR o.rd (op.value o.src1 o.src2)) := by
  cases op with
  | mul =>
    rw [MulDiv.value, BitVec.ofInt_mul, ofInt_toNat, ofInt_toNat, BitVec.setWidth_eq,
      BitVec.setWidth_eq]
    rfl
  | mulh =>
    rw [MulDiv.value, ← highWord_sshiftRight, BitVec.ofInt_mul]
    rfl
  | mulhsu =>
    rw [MulDiv.value, ← highWord_ushiftRight, BitVec.ofInt_mul, ofInt_toNat]
    rfl
  | mulhu =>
    rw [MulDiv.value, ← highWord_ushiftRight, BitVec.ofInt_mul, ofInt_toNat, ofInt_toNat]
    rfl
  | div => rfl
  | divu => rfl
  | rem => rfl
  | remu => rfl

theorem matchInst_muldiv {op : MulDiv} {inst : BitVec 32} (h : op.Encoded inst) :
    matchInst inst = some (op.name, .R) := by
  apply matchInst_funct7 h.opcode h.funct3 h.funct7
  cases op <;> decide +kernel

theorem decodeExec_muldiv (cfg : Config) {op : MulDiv} {e : Exec} (h : op.Encoded e.s.inst) :
    decodeExec cfg e = .ok (((e.jump e.s.snpc).setR (rd e.s.inst)
      (op.value (e.m.cpu.gpr (rs1 e.s.inst)) (e.m.cpu.gpr (rs2 e.s.inst)))).setR 0#5 0#32) := by
  have hmatch : matchInst (e.jump e.s.snpc).s.inst = some (op.name, .R) := matchInst_muldiv h
  simp only [decodeExec, hmatch, execBody_muldiv]
  rfl

/-! ## Exactness -/

section Products
variable {z : Int}

/-- The halves of an integer of 64 bits. -/
theorem halves_toInt (hlo : -2 ^ 63 ≤ z) (hhi : z < 2 ^ 63) :
    (highWord z ++ BitVec.ofInt 32 z).toInt = z := by
  have hhigh : (highWord z).toInt = z / 2 ^ 32 := by
    rw [highWord, BitVec.toInt_ofInt]
    apply Int.bmod_eq_of_le_mul_two <;> omega
  rw [BitVec.toInt_append, if_neg (by decide), hhigh, BitVec.toNat_ofInt]
  omega

theorem halves_toNat (hlo : 0 ≤ z) (hhi : z < 2 ^ 64) :
    ((highWord z ++ BitVec.ofInt 32 z).toNat : Int) = z := by
  rw [BitVec.toNat_append, ← Nat.shiftLeft_add_eq_or_of_lt (BitVec.isLt _), Nat.shiftLeft_eq,
    highWord, BitVec.toNat_ofInt, BitVec.toNat_ofInt]
  omega

/-- The three products have the same lower half. -/
theorem value_mul_eq (a b : BitVec 32) {x y : Int} (hx : BitVec.ofInt 32 x = a)
    (hy : BitVec.ofInt 32 y = b) : MulDiv.mul.value a b = BitVec.ofInt 32 (x * y) := by
  rw [MulDiv.value, BitVec.ofInt_mul, BitVec.ofInt_mul, ofInt_toNat, ofInt_toNat,
    BitVec.setWidth_eq, BitVec.setWidth_eq, hx, hy]

theorem ofInt_toNat_self (a : BitVec 32) : BitVec.ofInt 32 a.toNat = a := by
  rw [ofInt_toNat, BitVec.setWidth_eq]

theorem toInt_mul_toNat_bounds (a b : BitVec 32) :
    -2 ^ 63 ≤ a.toInt * b.toNat ∧ a.toInt * b.toNat < 2 ^ 63 := by
  have ha := toInt_bounds a
  have hb := b.isLt
  have hlo : -2 ^ 31 * (b.toNat : Int) ≤ a.toInt * b.toNat :=
    Int.mul_le_mul_of_nonneg_right ha.1 (by omega)
  have hhi : a.toInt * b.toNat ≤ 2 ^ 31 * (b.toNat : Int) :=
    Int.mul_le_mul_of_nonneg_right (by omega) (by omega)
  omega

theorem mulh_mul (a b : BitVec 32) :
    (MulDiv.mulh.value a b ++ MulDiv.mul.value a b).toInt = a.toInt * b.toInt := by
  have hle := BitVec.toInt_mul_toInt_le (x := a) (y := b)
  have hge := BitVec.le_toInt_mul_toInt (x := a) (y := b)
  rw [value_mul_eq a b BitVec.ofInt_toInt BitVec.ofInt_toInt, MulDiv.value]
  apply halves_toInt <;> omega

theorem mulhsu_mul (a b : BitVec 32) :
    (MulDiv.mulhsu.value a b ++ MulDiv.mul.value a b).toInt = a.toInt * b.toNat := by
  have h := toInt_mul_toNat_bounds a b
  rw [value_mul_eq a b BitVec.ofInt_toInt (ofInt_toNat_self b), MulDiv.value]
  exact halves_toInt h.1 h.2

theorem mulhu_mul (a b : BitVec 32) :
    (MulDiv.mulhu.value a b ++ MulDiv.mul.value a b).toNat = a.toNat * b.toNat := by
  have h := BitVec.toNat_mul_toNat_lt (x := a) (y := b)
  have hprod : (a.toNat : Int) * b.toNat = (a.toNat * b.toNat : Nat) := by push_cast; rfl
  rw [value_mul_eq a b (ofInt_toNat_self a) (ofInt_toNat_self b), MulDiv.value, hprod]
  apply Int.ofNat_inj.mp
  apply halves_toNat <;> omega

end Products

/-- The results `r` on operands `a` and `b`, as the RISC-V specification has them. -/
structure MulDivExact (a b : BitVec 32) (r : MulDiv → BitVec 32) : Prop where
  mulh : (r .mulh ++ r .mul).toInt = a.toInt * b.toInt
  mulhsu : (r .mulhsu ++ r .mul).toInt = a.toInt * b.toNat
  mulhu : (r .mulhu ++ r .mul).toNat = a.toNat * b.toNat
  divu : b ≠ 0#32 → a = r .divu * b + r .remu
  divuExact : b ≠ 0#32 → a.toNat = (r .divu).toNat * b.toNat + (r .remu).toNat
  remuBound : b ≠ 0#32 → (r .remu).toNat < b.toNat
  div : b ≠ 0#32 → a = r .div * b + r .rem
  divExact : b ≠ 0#32 → ¬(a = BitVec.intMin 32 ∧ b = -1#32) →
    a.toInt = (r .div).toInt * b.toInt + (r .rem).toInt
  remBound : b ≠ 0#32 → (r .rem).toInt.natAbs < b.toInt.natAbs
  remSign : b ≠ 0#32 → (r .rem).toInt = 0 ∨ (r .rem).toInt.sign = a.toInt.sign
  overflow : a = BitVec.intMin 32 → b = -1#32 → r .div = BitVec.intMin 32 ∧ r .rem = 0#32
  byZero : b = 0#32 → r .div = BitVec.allOnes 32 ∧ r .divu = BitVec.allOnes 32 ∧
    r .rem = a ∧ r .remu = a

section Quotients
variable {a b : BitVec 32} (hb : b ≠ 0#32)
include hb

theorem divu_remu :
    a.toNat = (MulDiv.divu.value a b).toNat * b.toNat + (MulDiv.remu.value a b).toNat := by
  rw [MulDiv.value, MulDiv.value, if_neg hb, if_neg hb, BitVec.toNat_udiv, BitVec.toNat_umod]
  exact (Nat.div_add_mod' _ _).symm

theorem remu_lt : (MulDiv.remu.value a b).toNat < b.toNat := by
  have hpos : 0 < b.toNat := by
    apply Nat.pos_of_ne_zero
    exact_mod_cast toNat_ne_zero hb
  rw [MulDiv.value, if_neg hb, BitVec.toNat_umod]
  exact Nat.mod_lt _ hpos

theorem div_rem (hover : ¬(a = 0x80000000#32 ∧ b = -1#32)) :
    a.toInt = (MulDiv.div.value a b).toInt * b.toInt + (MulDiv.rem.value a b).toInt := by
  rw [MulDiv.value, MulDiv.value, if_neg hb, if_neg hb, if_neg hover, if_neg hover,
    toInt_sdiv_word hover, BitVec.toInt_srem]
  have h := Int.tmod_add_tdiv_mul a.toInt b.toInt
  omega

theorem rem_toInt : (MulDiv.rem.value a b).toInt = a.toInt.tmod b.toInt := by
  rw [MulDiv.value, if_neg hb]
  split_ifs with hover
  · rw [hover.1, hover.2]
    decide
  · exact BitVec.toInt_srem a b

end Quotients

theorem value_exact (a b : BitVec 32) : MulDivExact a b (fun op => op.value a b) where
  mulh := mulh_mul a b
  mulhsu := mulhsu_mul a b
  mulhu := mulhu_mul a b
  divu hb := by
    apply BitVec.eq_of_toNat_eq
    rw [BitVec.toNat_add, BitVec.toNat_mul, Nat.mod_add_mod, ← divu_remu hb]
    exact (Nat.mod_eq_of_lt a.isLt).symm
  divuExact hb := divu_remu hb
  remuBound hb := remu_lt hb
  div hb := by
    by_cases hover : a = 0x80000000#32 ∧ b = -1#32
    · rw [hover.1, hover.2]
      decide
    · have h := congrArg (BitVec.ofInt 32) (div_rem hb hover)
      rw [BitVec.ofInt_add, BitVec.ofInt_mul] at h
      simpa only [BitVec.ofInt_toInt] using h
  divExact hb hover := div_rem hb hover
  remBound hb := by
    rw [rem_toInt hb, Int.natAbs_tmod]
    exact Nat.mod_lt _ (Int.natAbs_pos.mpr (toInt_ne_zero hb))
  remSign hb := by
    rw [rem_toInt hb, Int.sign_tmod]
    split_ifs with hdvd
    · exact .inl (Int.tmod_eq_zero_of_dvd hdvd)
    · exact .inr rfl
  overflow ha hb := by
    rw [ha, hb]
    decide
  byZero hb := by
    refine ⟨?_, ?_, if_pos hb, if_pos hb⟩
    · rw [MulDiv.value, if_pos hb, BitVec.neg_one_eq_allOnes]
    · rw [MulDiv.value, if_pos hb, BitVec.neg_one_eq_allOnes]

/-- Every instruction of the M extension leaves the exact result in `rd`, and no
evaluation is undefined. -/
theorem muldiv_exact (a b : BitVec 32) : ∃ r : MulDiv → BitVec 32,
    MulDivExact a b r ∧ (∀ op : MulDiv, op.body a b = some (r op)) ∧
    ∀ (cfg : Config) (op : MulDiv) (e : Exec), op.Encoded e.s.inst →
      e.m.cpu.gpr (rs1 e.s.inst) = a → e.m.cpu.gpr (rs2 e.s.inst) = b →
      decodeExec cfg e =
        .ok (((e.jump e.s.snpc).setR (rd e.s.inst) (r op)).setR 0#5 0#32) := by
  refine ⟨fun op => op.value a b, value_exact a b, fun op => op.body_eq a b, ?_⟩
  intro cfg op e henc ha hb
  rw [decodeExec_muldiv cfg henc, ha, hb]

end Nemu
