import Mathlib.Data.Int.Basic
import Mathlib.Algebra.Group.Nat.Defs
import Mathlib.Algebra.Group.Int.Defs

/-!
# Integer arithmetic of C

The integer types from the rank of `int` on, whose rank grows with their width,
in two's complement: conversions, the usual arithmetic conversions, and the
operators. An operation that C leaves undefined gives `none`. What C leaves to
the implementation is as compilers have it: a conversion to a signed type keeps
the low bits, and a right shift of a negative value copies its sign.
-/

namespace CInt

set_option autoImplicit false

structure IntType where
  signed : Bool
  width : Nat
  deriving Repr, DecidableEq

def i32 : IntType := ⟨true, 32⟩
def u32 : IntType := ⟨false, 32⟩
def i64 : IntType := ⟨true, 64⟩
def u64 : IntType := ⟨false, 64⟩

namespace IntType

/-- The values of a type, from `-2 ^ (width - 1)` below `2 ^ (width - 1)` if it is
signed. -/
def Represents (t : IntType) (z : Int) : Prop :=
  if t.signed then -2 ^ t.width ≤ 2 * z ∧ 2 * z < 2 ^ t.width else 0 ≤ z ∧ z < 2 ^ t.width

instance (t : IntType) (z : Int) : Decidable (t.Represents z) :=
  inferInstanceAs (Decidable (if t.signed then -2 ^ t.width ≤ 2 * z ∧ 2 * z < 2 ^ t.width
    else 0 ≤ z ∧ z < 2 ^ t.width))

/-- The usual arithmetic conversions: the wider type, and of two types of one
width the unsigned one. -/
def common (s t : IntType) : IntType :=
  if s.width < t.width then t
  else if t.width < s.width then s
  else ⟨s.signed && t.signed, s.width⟩

end IntType

structure Value (t : IntType) where
  bits : BitVec t.width

section Operators
variable {s t : IntType}

def Value.val (v : Value t) : Int := if t.signed then v.bits.toInt else v.bits.toNat

def Value.ofInt (t : IntType) (z : Int) : Value t := ⟨BitVec.ofInt t.width z⟩

def Value.convert (v : Value s) (t : IntType) : Value t := .ofInt t v.val

/-- The result `z` of an operation in the type `t`. A signed result that the
type does not represent is undefined. -/
def result (t : IntType) (z : Int) : Option (Value t) :=
  if t.signed = true ∧ ¬t.Represents z then none else some (.ofInt t z)

def Value.mul (x : Value s) (y : Value t) : Option (Value (s.common t)) :=
  result _ ((x.convert (s.common t)).val * (y.convert (s.common t)).val)

def Value.div (x : Value s) (y : Value t) : Option (Value (s.common t)) :=
  if (y.convert (s.common t)).val = 0 then none
  else result _ ((x.convert (s.common t)).val.tdiv (y.convert (s.common t)).val)

/-- The remainder is defined where the quotient is. -/
def Value.rem (x : Value s) (y : Value t) : Option (Value (s.common t)) :=
  (x.div y).map fun _ =>
    .ofInt _ ((x.convert (s.common t)).val.tmod (y.convert (s.common t)).val)

def Value.shr (x : Value t) (n : Nat) : Option (Value t) :=
  if n < t.width then some (.ofInt t (x.val >>> n)) else none

end Operators

section Values
variable {s t : IntType} {z : Int}

theorem represents_val (v : Value t) : t.Represents v.val := by
  unfold IntType.Represents Value.val
  split
  · exact ⟨BitVec.le_two_mul_toInt, BitVec.two_mul_toInt_lt⟩
  · have h := v.bits.isLt
    exact ⟨by omega, by exact_mod_cast h⟩

/-- A value is given by its bits. -/
theorem ofInt_val (v : Value t) : Value.ofInt t v.val = v := by
  unfold Value.ofInt Value.val
  split
  · rw [BitVec.ofInt_toInt]
  · rw [BitVec.ofInt_natCast, BitVec.ofNat_toNat, BitVec.setWidth_eq]

theorem exists_val_ofInt (t : IntType) (z : Int) :
    ∃ k, (Value.ofInt t z).val = z + 2 ^ t.width * k := by
  unfold Value.val Value.ofInt
  split
  · have h := Int.bmod_add_bdiv z (2 ^ t.width)
    rw [BitVec.toInt_ofInt]
    push_cast at h
    exact ⟨-z.bdiv (2 ^ t.width), by rw [Int.mul_neg]; omega⟩
  · have h := Int.emod_add_mul_ediv z (2 ^ t.width)
    have hn : (0 : Int) ≤ z % 2 ^ t.width :=
      Int.emod_nonneg z (Int.pow_ne_zero (by decide))
    rw [BitVec.toNat_ofInt]
    push_cast
    rw [Int.toNat_of_nonneg hn]
    exact ⟨-(z / 2 ^ t.width), by rw [Int.mul_neg]; omega⟩

theorem val_ofInt (hz : t.Represents z) : (Value.ofInt t z).val = z := by
  unfold IntType.Represents at hz
  unfold Value.val Value.ofInt
  split
  · rename_i hs
    rw [if_pos hs] at hz
    rw [BitVec.toInt_ofInt]
    apply Int.bmod_eq_of_le_mul_two
    · push_cast
      omega
    · push_cast
      omega
  · rename_i hs
    rw [if_neg hs] at hz
    rw [BitVec.toNat_ofInt]
    have hmod : z % ((2 ^ t.width : Nat) : Int) = z := by
      apply Int.emod_eq_of_lt hz.1
      exact_mod_cast hz.2
    rw [hmod]
    exact Int.toNat_of_nonneg hz.1

theorem val_convert {v : Value s} (h : t.Represents v.val) : (v.convert t).val = v.val :=
  val_ofInt h

theorem result_of_represents (h : t.Represents z) : result t z = some (.ofInt t z) := by
  rw [result, if_neg fun hn => hn.2 h]

theorem result_of_unsigned (h : t.signed = false) : result t z = some (.ofInt t z) := by
  rw [result, if_neg fun hn => by simp [h] at hn]

end Values

section Arithmetic
variable {s t : IntType} {x : Value s} {y : Value t}
  (hx : (s.common t).Represents x.val) (hy : (s.common t).Represents y.val)
include hx hy

theorem mul_of_represents (h : (s.common t).Represents (x.val * y.val)) :
    x.mul y = some (.ofInt _ (x.val * y.val)) := by
  rw [Value.mul, val_convert hx, val_convert hy, result_of_represents h]

theorem div_of_represents (h0 : y.val ≠ 0) (h : (s.common t).Represents (x.val.tdiv y.val)) :
    x.div y = some (.ofInt _ (x.val.tdiv y.val)) := by
  rw [Value.div, val_convert hx, val_convert hy, if_neg h0, result_of_represents h]

theorem rem_of_represents (h0 : y.val ≠ 0) (h : (s.common t).Represents (x.val.tdiv y.val)) :
    x.rem y = some (.ofInt _ (x.val.tmod y.val)) := by
  rw [Value.rem, div_of_represents hx hy h0 h, val_convert hx, val_convert hy, Option.map_some]

end Arithmetic

/-- Unsigned arithmetic is modular. -/
theorem mul_of_unsigned {s t : IntType} {x : Value s} {y : Value t}
    (h : (s.common t).signed = false) : x.mul y = some (.ofInt _ (x.val * y.val)) := by
  rw [Value.mul, result_of_unsigned h]
  have hmod : ∀ {r : IntType} (v : Value r), BitVec.ofInt (s.common t).width
      (v.convert (s.common t)).val = BitVec.ofInt (s.common t).width v.val :=
    fun v => congrArg Value.bits (ofInt_val (v.convert (s.common t)))
  rw [Value.ofInt, Value.ofInt, BitVec.ofInt_mul, BitVec.ofInt_mul, hmod, hmod]

end CInt
