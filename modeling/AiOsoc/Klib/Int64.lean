import Mathlib.Algebra.Group.Nat.Defs
import Mathlib.Data.BitVec
import Mathlib.Tactic.Ring

/-!
# Division of double words

`klib/src/int64.c`: the functions a compiler for RV32 calls to divide 64-bit
numbers, on which the digits of `printf` and the microseconds of the timer rest.
The remainder is returned beside the quotient; a division by zero, which C leaves
undefined, is `none`. Signed arithmetic wraps around.
-/

namespace Klib

set_option autoImplicit false

/-- A condition as a C value. -/
def truth (b : Bool) : BitVec 32 := if b then 1#32 else 0#32

/-! ## Leading and trailing zeros -/

/-- One turn of `__clzsi2` on the word and the count: if the bits of `mask` are zero
the other half is looked at. -/
def clzTurn (mask half : BitVec 32) (log : Nat) (p : BitVec 32 × BitVec 32) :
    BitVec 32 × BitVec 32 :=
  let t := truth (p.1 &&& mask == 0#32) <<< log
  (p.1 >>> (half - t), p.2 + t)

def clzsi2 (a : BitVec 32) : BitVec 32 :=
  let p := clzTurn 0xffff0000#32 16#32 4 (a, 0#32)
  let p := clzTurn 0xff00#32 8#32 3 p
  let p := clzTurn 0xf0#32 4#32 2 p
  let (x, r) := clzTurn 0xc#32 2#32 1 p
  r + ((2#32 - x) &&& -truth (x &&& 2#32 == 0#32))

def ctzTurn (mask : BitVec 32) (log : Nat) (p : BitVec 32 × BitVec 32) : BitVec 32 × BitVec 32 :=
  let t := truth (p.1 &&& mask == 0#32) <<< log
  (p.1 >>> t, p.2 + t)

def ctzsi2 (a : BitVec 32) : BitVec 32 :=
  let p := ctzTurn 0xffff#32 4 (a, 0#32)
  let p := ctzTurn 0xff#32 3 p
  let p := ctzTurn 0xf#32 2 p
  let (x, r) := ctzTurn 0x3#32 1 p
  let x := x &&& 3#32
  r + ((2#32 - x >>> 1) &&& -truth (x &&& 1#32 == 0#32))

/-! ## Unsigned division -/

/-- The union `udwords`: a double word with its halves. -/
structure Udwords where
  high : BitVec 32
  low : BitVec 32
  deriving Repr, DecidableEq

namespace Udwords

def all (x : Udwords) : BitVec 64 := x.high ++ x.low

def ofAll (v : BitVec 64) : Udwords := ⟨v.extractLsb' 32 32, v.extractLsb' 0 32⟩

end Udwords

/-- The quotient and the remainder as the loop has them; the last bit of the quotient
is in `carry`. -/
structure DivState where
  q : Udwords
  r : Udwords
  carry : BitVec 32

def divTurn (d : BitVec 64) (t : DivState) : DivState :=
  let rHigh := (t.r.high <<< 1) ||| (t.r.low >>> 31)
  let rLow := (t.r.low <<< 1) ||| (t.q.high >>> 31)
  let qHigh := (t.q.high <<< 1) ||| (t.q.low >>> 31)
  let qLow := (t.q.low <<< 1) ||| t.carry
  let r : Udwords := ⟨rHigh, rLow⟩
  let s := (d - r.all - 1#64).sshiftRight 63
  ⟨⟨qHigh, qLow⟩, .ofAll (r.all - (d &&& s)), (s &&& 1#64).setWidth 32⟩

def divLoop (d : BitVec 64) : Nat → DivState → DivState
  | 0, t => t
  | sr + 1, t => divLoop d sr (divTurn d t)

/-- From `su_int carry = 0` on. -/
def divRest (d : BitVec 64) (sr : BitVec 32) (q r : Udwords) : BitVec 64 × BitVec 64 :=
  let t := divLoop d sr.toNat ⟨q, r, 0#32⟩
  ((t.q.all <<< 1) ||| t.carry.setWidth 64, t.r.all)

/-! The start of `q` and `r` for shifts below, at and above 32. -/

section Start
variable (n : Udwords) (sr : BitVec 32)

def startBelow : Udwords × Udwords :=
  (⟨n.low <<< (32#32 - sr), 0#32⟩,
    ⟨n.high >>> sr, (n.high <<< (32#32 - sr)) ||| (n.low >>> sr)⟩)

def startAt : Udwords × Udwords := (⟨n.low, 0#32⟩, ⟨0#32, n.high⟩)

def startAbove : Udwords × Udwords :=
  (⟨(n.high <<< (64#32 - sr)) ||| (n.low >>> (sr - 32#32)), n.low <<< (64#32 - sr)⟩,
    ⟨0#32, n.high >>> (sr - 32#32)⟩)

end Start

/-- Quotient and remainder of double words. In the comments of the source `X` is
unknown and `K` is not zero. -/
def udivmoddi4 (a b : BitVec 64) : Option (BitVec 64 × BitVec 64) :=
  let n := Udwords.ofAll a
  let d := Udwords.ofAll b
  if n.high = 0#32 then
    if d.high = 0#32 then
      -- 0 X / 0 X
      if d.low = 0#32 then none
      else some ((n.low / d.low).setWidth 64, (n.low % d.low).setWidth 64)
    -- 0 X / K X
    else some (0#64, n.low.setWidth 64)
  else if d.low = 0#32 then
    -- K X / 0 0
    if d.high = 0#32 then none
    -- K 0 / K 0
    else if n.low = 0#32 then
      some ((n.high / d.high).setWidth 64, Udwords.all ⟨n.high % d.high, 0#32⟩)
    -- K K / K 0
    else if d.high &&& (d.high - 1#32) = 0#32 then
      some ((n.high >>> ctzsi2 d.high).setWidth 64,
        Udwords.all ⟨n.high &&& (d.high - 1#32), n.low⟩)
    else
      let sr := clzsi2 d.high - clzsi2 n.high
      if 30#32 < sr then some (0#64, a)
      else
        let sr := sr + 1#32
        let (q, r) := startBelow n sr
        some (divRest b sr q r)
  else if d.high = 0#32 then
    -- K X / 0 K
    if d.low &&& (d.low - 1#32) = 0#32 then
      let rem := (n.low &&& (d.low - 1#32)).setWidth 64
      if d.low = 1#32 then some (a, rem)
      else
        let sr := ctzsi2 d.low
        some (Udwords.all ⟨n.high >>> sr, (n.high <<< (32#32 - sr)) ||| (n.low >>> sr)⟩, rem)
    else
      let sr := 1#32 + 32#32 + clzsi2 d.low - clzsi2 n.high
      let (q, r) := if sr = 32#32 then startAt n
        else if sr < 32#32 then startBelow n sr else startAbove n sr
      some (divRest b sr q r)
  else
    -- K X / K K
    let sr := clzsi2 d.high - clzsi2 n.high
    if 31#32 < sr then some (0#64, a)
    else
      let sr := sr + 1#32
      let (q, r) := if sr = 32#32 then startAt n else startBelow n sr
      some (divRest b sr q r)

def udivdi3 (a b : BitVec 64) : Option (BitVec 64) := do
  let (q, _) ← udivmoddi4 a b
  return q

def umoddi3 (a b : BitVec 64) : Option (BitVec 64) := do
  let (_, r) ← udivmoddi4 a b
  return r

/-! ## Signed division -/

/-- `(a ^ s) - s`: negate if `s` is -1. -/
def negateIf (s a : BitVec 64) : BitVec 64 := (a ^^^ s) - s

def divdi3 (a b : BitVec 64) : Option (BitVec 64) := do
  let sA := a.sshiftRight 63
  let sB := b.sshiftRight 63
  let (q, _) ← udivmoddi4 (negateIf sA a) (negateIf sB b)
  return negateIf (sA ^^^ sB) q

def moddi3 (a b : BitVec 64) : Option (BitVec 64) := do
  let sB := b.sshiftRight 63
  let sA := a.sshiftRight 63
  let (_, r) ← udivmoddi4 (negateIf sA a) (negateIf sB b)
  return negateIf sA r

def divmoddi4 (a b : BitVec 64) : Option (BitVec 64 × BitVec 64) := do
  let d ← divdi3 a b
  return (d, a - d * b)

/-! ## Counting zeros -/

theorem two_pow_of_add {x y z : Nat} (h : z = x + y) : 2 ^ z = 2 ^ x * 2 ^ y := by
  rw [h, Nat.pow_add]

theorem and_shiftLeft (a b h : Nat) : a &&& (b <<< h) = ((a >>> h) &&& b) <<< h := by
  apply Nat.eq_of_testBit_eq
  intro i
  simp only [Nat.testBit_and, Nat.testBit_shiftLeft, Nat.testBit_shiftRight]
  by_cases hi : h ≤ i
  · simp [hi, Nat.add_sub_of_le hi]
  · simp [hi]

/-- The upper half of a word of `2 * h` bits is zero. -/
theorem upper_zero_iff {x mask : BitVec 32} {h : Nat} (hm : mask.toNat = (2 ^ h - 1) <<< h)
    (hx : x.toNat < 2 ^ h * 2 ^ h) : x &&& mask = 0#32 ↔ x.toNat < 2 ^ h := by
  have hpos : 0 < 2 ^ h := Nat.pow_pos (by decide)
  have hq : x.toNat / 2 ^ h < 2 ^ h := Nat.div_lt_of_lt_mul hx
  rw [← BitVec.toNat_inj, BitVec.toNat_and, hm, and_shiftLeft, Nat.and_two_pow_sub_one_eq_mod,
    Nat.shiftRight_eq_div_pow, Nat.mod_eq_of_lt hq, Nat.shiftLeft_eq, BitVec.toNat_ofNat,
    Nat.zero_mod, Nat.mul_eq_zero, Nat.div_eq_zero_iff]
  omega

/-- What `__clzsi2` has found: `x` is what is left of `a`, of `w` bits. -/
structure Counted (a : BitVec 32) (w : Nat) (p : BitVec 32 × BitVec 32) : Prop where
  width : p.1.toNat < 2 ^ w
  pos : 0 < p.1.toNat
  count : p.2.toNat + w ≤ 32
  left : a.toNat / 2 ^ (32 - w - p.2.toNat) = p.1.toNat

/-- A turn halves the width. -/
theorem Counted.turn {a : BitVec 32} {p : BitVec 32 × BitVec 32} {h log : Nat}
    {mask half : BitVec 32} (hp : Counted a (h + h) p) (hh : half.toNat = h) (hlt : h ≤ 16)
    (hlog : h = 2 ^ log) (hm : mask.toNat = (2 ^ h - 1) <<< h) :
    Counted a h (clzTurn mask half log p) := by
  have hzero := upper_zero_iff hm (by rw [← Nat.pow_add]; exact hp.width)
  have hone : (1#32 <<< log).toNat = h := by
    have hl : 2 ^ log < 2 ^ 32 := by rw [← hlog]; omega
    rw [BitVec.toNat_shiftLeft, BitVec.toNat_ofNat, Nat.shiftLeft_eq, ← hlog]
    omega
  have hcount := hp.count
  by_cases hx : p.1.toNat < 2 ^ h
  · have hturn : clzTurn mask half log p = (p.1, p.2 + half) := by
      have ht : truth (p.1 &&& mask == 0#32) <<< log = half := by
        apply BitVec.eq_of_toNat_eq
        rw [hzero.mpr hx, hh]
        exact hone
      simp only [clzTurn, ht, BitVec.sub_self]
      rw [BitVec.ushiftRight_eq']
      simp
    have hsum : (p.2 + half).toNat = p.2.toNat + h := by
      rw [BitVec.toNat_add, hh]
      omega
    rw [hturn]
    refine ⟨hx, hp.pos, by simp only [hsum]; omega, ?_⟩
    rw [hsum, ← hp.left]
    congr 2
    omega
  · have hturn : clzTurn mask half log p = (p.1 >>> h, p.2) := by
      have ht : truth (p.1 &&& mask == 0#32) <<< log = 0#32 := by
        have hne : (p.1 &&& mask == 0#32) = false :=
          beq_eq_false_iff_ne.mpr fun he => hx (hzero.mp he)
        rw [hne]
        exact BitVec.zero_shiftLeft log
      simp only [clzTurn, ht, BitVec.sub_zero, BitVec.add_zero]
      rw [BitVec.ushiftRight_eq', hh]
    have hdiv : (p.1 >>> h).toNat = p.1.toNat / 2 ^ h := by
      rw [BitVec.toNat_ushiftRight, Nat.shiftRight_eq_div_pow]
    rw [hturn]
    refine ⟨?_, ?_, by simp only; omega, ?_⟩
    · rw [hdiv]
      exact Nat.div_lt_of_lt_mul (by rw [← Nat.pow_add]; exact hp.width)
    · rw [hdiv]
      exact Nat.div_pos (by omega) (Nat.pow_pos (by decide))
    · simp only [hdiv, ← hp.left, Nat.div_div_eq_div_mul, ← Nat.pow_add]
      congr 2
      omega

/-- The number of leading zeros says how long the word is. -/
theorem clzsi2_bounds {a : BitVec 32} (ha : a ≠ 0#32) :
    (clzsi2 a).toNat ≤ 31 ∧ 2 ^ (31 - (clzsi2 a).toNat) ≤ a.toNat ∧
      a.toNat < 2 ^ (32 - (clzsi2 a).toNat) := by
  have hpos : 0 < a.toNat := Nat.pos_of_ne_zero fun he => ha (BitVec.eq_of_toNat_eq he)
  have h32 : Counted a (16 + 16) (a, 0#32) := ⟨a.isLt, hpos, by simp, by simp⟩
  have h16 : Counted a (8 + 8) (clzTurn 0xffff0000#32 16#32 4 (a, 0#32)) :=
    h32.turn rfl (by decide) rfl rfl
  have h8 : Counted a (4 + 4) (clzTurn 0xff00#32 8#32 3 _) := h16.turn rfl (by decide) rfl rfl
  have h4 : Counted a (2 + 2) (clzTurn 0xf0#32 4#32 2 _) := h8.turn rfl (by decide) rfl rfl
  have h2 : Counted a 2 (clzTurn 0xc#32 2#32 1 _) := h4.turn rfl (by decide) rfl rfl
  have hdef : clzsi2 a = (fun p : BitVec 32 × BitVec 32 =>
      p.2 + ((2#32 - p.1) &&& -truth (p.1 &&& 2#32 == 0#32)))
      (clzTurn 0xc#32 2#32 1 (clzTurn 0xf0#32 4#32 2 (clzTurn 0xff00#32 8#32 3
        (clzTurn 0xffff0000#32 16#32 4 (a, 0#32))))) := rfl
  rw [hdef]
  generalize clzTurn 0xc#32 2#32 1 _ = p at h2
  obtain ⟨x, r⟩ := p
  obtain ⟨hw, hx, hc, hl⟩ := h2
  simp only at hw hx hc hl ⊢
  have hspan : x.toNat * 2 ^ (30 - r.toNat) ≤ a.toNat ∧
      a.toNat < (x.toNat + 1) * 2 ^ (30 - r.toNat) := by
    have hp : 0 < 2 ^ (30 - r.toNat) := Nat.pow_pos (by decide)
    have hl' : a.toNat / 2 ^ (30 - r.toNat) = x.toNat := hl
    rw [← hl']
    exact ⟨Nat.div_mul_le_self _ _, Nat.lt_mul_of_div_lt (Nat.lt_succ_self _) hp⟩
  have hsucc : 2 ^ (31 - r.toNat) = 2 * 2 ^ (30 - r.toNat) :=
    two_pow_of_add (x := 1) (by omega)
  have hsucc' : 2 ^ (32 - r.toNat) = 4 * 2 ^ (30 - r.toNat) :=
    two_pow_of_add (x := 2) (by omega)
  have hxs : x = 1#32 ∨ x = 2#32 ∨ x = 3#32 := by
    simp only [← BitVec.toNat_inj, BitVec.toNat_ofNat]
    omega
  rcases hxs with rfl | rfl | rfl
  · have hr : r + ((2#32 - 1#32) &&& -truth (1#32 &&& 2#32 == 0#32)) = r + 1#32 := rfl
    have hn : (r + 1#32).toNat = r.toNat + 1 := by
      rw [BitVec.toNat_add, BitVec.toNat_ofNat]
      omega
    rw [hr, hn, show 31 - (r.toNat + 1) = 30 - r.toNat by omega,
      show 32 - (r.toNat + 1) = 31 - r.toNat by omega, hsucc]
    simp only [BitVec.toNat_ofNat] at hspan
    omega
  all_goals
    have hr : r + ((2#32 - 2#32) &&& -truth (2#32 &&& 2#32 == 0#32)) = r := BitVec.add_zero r
    have hr' : r + ((2#32 - 3#32) &&& -truth (3#32 &&& 2#32 == 0#32)) = r := BitVec.add_zero r
    simp only [hr, hr', hsucc, hsucc']
    simp only [BitVec.toNat_ofNat] at hspan
    omega

/-- Trailing zeros are only counted in powers of two. -/
theorem ctzsi2_pow {k : Nat} (hk : k < 32) :
    ctzsi2 (BitVec.ofNat 32 (2 ^ k)) = BitVec.ofNat 32 k := by
  have h : ∀ k < 32, ctzsi2 (BitVec.ofNat 32 (2 ^ k)) = BitVec.ofNat 32 k := by decide +kernel
  exact h k hk

/-- The test for a power of two. -/
theorem power_of_test {d : BitVec 32} (h0 : d ≠ 0#32) (h : d &&& (d - 1#32) = 0#32) :
    ∃ k < 32, d = BitVec.ofNat 32 (2 ^ k) := by
  have hd : d.toNat ≠ 0 := fun he => h0 (BitVec.eq_of_toNat_eq he)
  have hlt := d.isLt
  have hsub : (d - 1#32).toNat = d.toNat - 1 := by
    rw [BitVec.toNat_sub, BitVec.toNat_ofNat]
    omega
  have hand := congrArg BitVec.toNat h
  rw [BitVec.toNat_and, hsub] at hand
  obtain ⟨k, hk⟩ := (Nat.and_sub_one_eq_zero_iff_isPowerOfTwo hd).mp hand
  refine ⟨k, ?_, ?_⟩
  · rw [hk] at hlt
    exact (Nat.pow_lt_pow_iff_right (by decide)).mp hlt
  · apply BitVec.eq_of_toNat_eq
    rw [BitVec.toNat_ofNat, ← hk, Nat.mod_eq_of_lt hlt]

/-! ## Halves -/

theorem append_toNat (x y : BitVec 32) : (x ++ y).toNat = x.toNat * 2 ^ 32 + y.toNat := by
  rw [BitVec.toNat_append, ← Nat.shiftLeft_add_eq_or_of_lt y.isLt, Nat.shiftLeft_eq]

theorem Udwords.all_toNat (x : Udwords) :
    x.all.toNat = x.high.toNat * 2 ^ 32 + x.low.toNat := append_toNat x.high x.low

theorem Udwords.ofAll_toNat (v : BitVec 64) :
    (ofAll v).high.toNat = v.toNat / 2 ^ 32 ∧ (ofAll v).low.toNat = v.toNat % 2 ^ 32 := by
  have hlt := v.isLt
  simp only [ofAll, BitVec.extractLsb'_toNat, Nat.shiftRight_eq_div_pow]
  omega

theorem Udwords.all_ofAll (v : BitVec 64) : (ofAll v).all = v := by
  apply BitVec.eq_of_toNat_eq
  rw [all_toNat, (ofAll_toNat v).1, (ofAll_toNat v).2]
  omega

/-! A number shifted left by `32 - k`: what stays in the word and what leaves it. -/

section Shift
variable {k : Nat} (hk : k ≤ 32)
include hk

theorem two_pow_split : 2 ^ 32 = 2 ^ k * 2 ^ (32 - k) :=
  two_pow_of_add (Nat.add_sub_of_le hk).symm

theorem shifted_mod (x : Nat) : x * 2 ^ (32 - k) % 2 ^ 32 = x % 2 ^ k * 2 ^ (32 - k) := by
  rw [two_pow_split hk, Nat.mul_mod_mul_right]

theorem shifted_eq (x : Nat) :
    x * 2 ^ (32 - k) = x / 2 ^ k * 2 ^ 32 + x % 2 ^ k * 2 ^ (32 - k) := by
  have hx : x = x / 2 ^ k * 2 ^ k + x % 2 ^ k := (Nat.div_add_mod' x (2 ^ k)).symm
  rw [two_pow_split hk, ← Nat.mul_assoc, ← Nat.add_mul, ← hx]

/-- A word shifted left, filled up from the word below it. -/
theorem shift_join (x y : BitVec 32) : ((x <<< (32 - k)) ||| (y >>> k)).toNat =
    x.toNat % 2 ^ k * 2 ^ (32 - k) + y.toNat / 2 ^ k := by
  have hlow : y.toNat / 2 ^ k < 2 ^ (32 - k) := by
    apply Nat.div_lt_of_lt_mul
    rw [← two_pow_split hk]
    exact y.isLt
  rw [BitVec.toNat_or, BitVec.toNat_shiftLeft, BitVec.toNat_ushiftRight,
    Nat.shiftRight_eq_div_pow, Nat.shiftLeft_eq, shifted_mod hk,
    ← Nat.shiftLeft_eq, ← Nat.shiftLeft_add_eq_or_of_lt hlow]

/-- The shift right of a double word, by halves. -/
theorem shifted_right (n : Udwords) :
    n.high.toNat / 2 ^ k * 2 ^ 32 + (n.high.toNat % 2 ^ k * 2 ^ (32 - k) + n.low.toNat / 2 ^ k) =
      n.all.toNat / 2 ^ k := by
  have hall : n.all.toNat = 2 ^ k * (n.high.toNat * 2 ^ (32 - k)) + n.low.toNat := by
    rw [Udwords.all_toNat, two_pow_split hk, Nat.mul_left_comm]
  rw [hall, Nat.mul_add_div (Nat.pow_pos (by decide)), shifted_eq hk n.high.toNat, Nat.add_assoc]

end Shift

/-! ## The start of the loop -/

/-- The low `s` bits of `n` are at the top of `q`, the others are `r`. -/
structure Started (n : BitVec 64) (s : Nat) (p : Udwords × Udwords) : Prop where
  quotient : p.1.all.toNat = n.toNat % 2 ^ s * 2 ^ (64 - s)
  remainder : p.2.all.toNat = n.toNat / 2 ^ s

section Start
variable {a : BitVec 64} {sr : BitVec 32}

theorem startBelow_started (h1 : 1 ≤ sr.toNat) (h2 : sr.toNat < 32) :
    Started a sr.toNat (startBelow (.ofAll a) sr) := by
  have hamount : (32#32 - sr).toNat = 32 - sr.toNat := by
    rw [BitVec.toNat_sub, BitVec.toNat_ofNat]
    omega
  obtain ⟨hhigh, hlow⟩ := Udwords.ofAll_toNat a
  have hk : sr.toNat ≤ 32 := by omega
  constructor
  · have hpow : 2 ^ (64 - sr.toNat) = 2 ^ (32 - sr.toNat) * 2 ^ 32 := two_pow_of_add (by omega)
    have hmod : a.toNat % 2 ^ 32 % 2 ^ sr.toNat = a.toNat % 2 ^ sr.toNat :=
      Nat.mod_mod_of_dvd _ ⟨_, two_pow_split hk⟩
    rw [startBelow, Udwords.all_toNat, BitVec.shiftLeft_eq', BitVec.toNat_shiftLeft, hamount,
      Nat.shiftLeft_eq, hlow, shifted_mod hk, hmod, hpow, ← Nat.mul_assoc]
    exact Nat.add_zero _
  · have hright := shifted_right hk (.ofAll a)
    rw [Udwords.all_ofAll] at hright
    simp only [startBelow, Udwords.all_toNat]
    rw [BitVec.shiftLeft_eq', BitVec.ushiftRight_eq', BitVec.ushiftRight_eq', hamount,
      shift_join hk, BitVec.toNat_ushiftRight, Nat.shiftRight_eq_div_pow]
    exact hright

theorem startAt_started : Started a 32 (startAt (.ofAll a)) := by
  obtain ⟨hhigh, hlow⟩ := Udwords.ofAll_toNat a
  constructor
  · simp only [startAt, Udwords.all_toNat, hlow, BitVec.toNat_ofNat]
    omega
  · simp only [startAt, Udwords.all_toNat, hhigh, BitVec.toNat_ofNat]
    omega

theorem startAbove_started (h1 : 32 < sr.toNat) (h2 : sr.toNat < 64) :
    Started a sr.toNat (startAbove (.ofAll a) sr) := by
  obtain ⟨t, ht⟩ : ∃ t, sr.toNat = 32 + t := ⟨sr.toNat - 32, by omega⟩
  have hup : (64#32 - sr).toNat = 32 - t := by
    rw [BitVec.toNat_sub, BitVec.toNat_ofNat]
    omega
  have hdown : (sr - 32#32).toNat = t := by
    rw [BitVec.toNat_sub, BitVec.toNat_ofNat]
    omega
  obtain ⟨hhigh, hlow⟩ := Udwords.ofAll_toNat a
  have hk : t ≤ 32 := by omega
  constructor
  · have hmod : a.toNat % 2 ^ (32 + t) = a.toNat / 2 ^ 32 % 2 ^ t * 2 ^ 32 + a.toNat % 2 ^ 32 := by
      rw [Nat.pow_add, Nat.mod_mul, Nat.add_comm, Nat.mul_comm]
    rw [startAbove, Udwords.all_toNat, BitVec.shiftLeft_eq', BitVec.ushiftRight_eq',
      BitVec.shiftLeft_eq', hup, hdown, shift_join hk, BitVec.toNat_shiftLeft, Nat.shiftLeft_eq,
      hhigh, hlow, shifted_mod hk, ht, hmod, show 64 - (32 + t) = 32 - t by omega,
      Nat.add_mul _ (a.toNat % 2 ^ 32), shifted_eq hk (a.toNat % 2 ^ 32)]
    ring
  · simp only [startAbove, Udwords.all_toNat, BitVec.ushiftRight_eq', hdown,
      BitVec.toNat_ushiftRight, Nat.shiftRight_eq_div_pow, hhigh, BitVec.toNat_ofNat, ht]
    rw [Nat.zero_mod, Nat.zero_mul, Nat.zero_add, Nat.div_div_eq_div_mul, ← Nat.pow_add]

end Start

/-! ## The loop -/

/-- The sign of a double word, in every bit. -/
theorem sign_word (v : BitVec 64) :
    v.sshiftRight 63 = if v.msb then BitVec.allOnes 64 else 0#64 := by
  have hlt := v.isLt
  have hmsb := BitVec.msb_eq_decide v
  apply BitVec.eq_of_toNat_eq
  cases h : v.msb with
  | true =>
    have hge : 2 ^ 63 ≤ v.toNat := by simpa [h] using hmsb
    rw [BitVec.toNat_sshiftRight_of_msb_true h, Nat.shiftRight_eq_div_pow, if_pos rfl,
      BitVec.toNat_allOnes]
    omega
  | false =>
    have hno : v.toNat < 2 ^ 63 := by simpa [h] using hmsb
    rw [BitVec.toNat_sshiftRight_of_msb_false h, Nat.shiftRight_eq_div_pow]
    simp only [Bool.false_eq_true, if_false, BitVec.toNat_ofNat]
    omega

/-- The mask of the loop says whether the divisor can be subtracted, unless the
difference does not fit a signed double word. -/
theorem compare_sign {d r : BitVec 64} (hr : r.toNat < 2 * d.toNat)
    (hfit : d.toNat ≤ 2 ^ 63 ∨ 2 ^ 63 ≤ r.toNat) :
    (d - r - 1#64).sshiftRight 63 = if d.toNat ≤ r.toNat then BitVec.allOnes 64 else 0#64 := by
  have hd := d.isLt
  have hlt := r.isLt
  have hval : (d - r - 1#64).toNat =
      if d.toNat ≤ r.toNat then 2 ^ 64 + d.toNat - r.toNat - 1 else d.toNat - r.toNat - 1 := by
    rw [BitVec.toNat_sub, BitVec.toNat_sub, BitVec.toNat_ofNat]
    split <;> omega
  have hmsb : (d - r - 1#64).msb = decide (d.toNat ≤ r.toNat) := by
    rw [BitVec.msb_eq_decide, decide_eq_decide, hval]
    split <;> omega
  rw [sign_word, hmsb]
  simp only [decide_eq_true_eq]

/-- The loop with `k` turns to go: `Q` is the quotient so far, and its last bit is the
carry. -/
structure Dividing (n d : BitVec 64) (k Q : Nat) (t : DivState) : Prop where
  split : n.toNat / 2 ^ k = Q * d.toNat + t.r.all.toNat
  remainder : t.r.all.toNat < d.toNat
  quotient : t.q.all.toNat = n.toNat % 2 ^ k * 2 ^ (64 - k) + Q / 2
  carry : t.carry.toNat = Q % 2
  small : Q < 2 ^ (64 - k)

/-- The double word `r:q` shifted left by one. -/
theorem shifted_state (t : DivState) (hc : t.carry.toNat < 2) :
    Udwords.all ⟨(t.r.high <<< 1) ||| (t.r.low >>> 31), (t.r.low <<< 1) ||| (t.q.high >>> 31)⟩ =
      BitVec.ofNat 64 (2 * t.r.all.toNat + t.q.all.toNat / 2 ^ 63) ∧
    (Udwords.all ⟨(t.q.high <<< 1) ||| (t.q.low >>> 31), (t.q.low <<< 1) ||| t.carry⟩).toNat =
      2 * t.q.all.toNat % 2 ^ 64 + t.carry.toNat := by
  have hjoin : ∀ x y : BitVec 32, ((x <<< 1) ||| (y >>> 31)).toNat =
      x.toNat % 2 ^ 31 * 2 + y.toNat / 2 ^ 31 := by
    intro x y
    have h31 := shift_join (k := 31) (by decide) x y
    rwa [show 32 - 31 = 1 from rfl, Nat.pow_one] at h31
  have hor : ((t.q.low <<< 1) ||| t.carry).toNat = t.q.low.toNat % 2 ^ 31 * 2 + t.carry.toNat := by
    have hlow : (t.q.low <<< 1).toNat = (t.q.low.toNat % 2 ^ 31) <<< 1 := by
      rw [BitVec.toNat_shiftLeft, Nat.shiftLeft_eq, Nat.shiftLeft_eq]
      omega
    rw [BitVec.toNat_or, hlow, ← Nat.shiftLeft_add_eq_or_of_lt hc, Nat.shiftLeft_eq]
  have h1 := t.r.high.isLt
  have h2 := t.r.low.isLt
  have h3 := t.q.high.isLt
  have h4 := t.q.low.isLt
  constructor
  · apply BitVec.eq_of_toNat_eq
    simp only [Udwords.all_toNat, hjoin, BitVec.toNat_ofNat]
    omega
  · simp only [Udwords.all_toNat, hjoin, hor]
    omega

/-- The next bit of the dividend is on top of `q`. -/
theorem Dividing.next_bit {n d : BitVec 64} {k Q : Nat} {t : DivState}
    (h : Dividing n d (k + 1) Q t) (hk : k < 64) :
    t.q.all.toNat / 2 ^ 63 = n.toNat / 2 ^ k % 2 ∧
      2 * t.q.all.toNat % 2 ^ 64 + t.carry.toNat = n.toNat % 2 ^ k * 2 ^ (64 - k) + Q := by
  have hQ := h.small
  have hhalf : 2 ^ (64 - k) = 2 ^ (64 - (k + 1)) * 2 := two_pow_of_add (y := 1) (by omega)
  have hsplit : 2 ^ 63 = 2 ^ (64 - (k + 1)) * 2 ^ k := two_pow_of_add (by omega)
  have hsplit' : 2 ^ 64 = 2 ^ (64 - k) * 2 ^ k := two_pow_of_add (by omega)
  have hmod : n.toNat % 2 ^ (k + 1) = n.toNat % 2 ^ k + 2 ^ k * (n.toNat / 2 ^ k % 2) := by
    rw [Nat.pow_succ, Nat.mod_mul]
  have hlow : n.toNat % 2 ^ k < 2 ^ k := Nat.mod_lt _ (Nat.pow_pos (by decide))
  constructor
  · have hq : t.q.all.toNat / 2 ^ (64 - (k + 1)) = n.toNat % 2 ^ (k + 1) := by
      rw [h.quotient, Nat.mul_comm, Nat.mul_add_div (Nat.pow_pos (by decide)),
        Nat.div_eq_of_lt (by omega), Nat.add_zero]
    rw [hsplit, ← Nat.div_div_eq_div_mul, hq, hmod,
      Nat.add_mul_div_left _ _ (Nat.pow_pos (by decide)), Nat.div_eq_of_lt hlow, Nat.zero_add]
  · have htwice : 2 * t.q.all.toNat = (n.toNat % 2 ^ k * 2 ^ (64 - k) + Q / 2 * 2) +
        2 ^ 64 * (n.toNat / 2 ^ k % 2) := by
      rw [h.quotient, hmod, hsplit', hhalf]
      ring
    have hfit : n.toNat % 2 ^ k * 2 ^ (64 - k) + Q / 2 * 2 < 2 ^ 64 := by
      have hmul : (n.toNat % 2 ^ k + 1) * 2 ^ (64 - k) ≤ 2 ^ k * 2 ^ (64 - k) :=
        Nat.mul_le_mul_right _ hlow
      rw [Nat.add_mul, Nat.one_mul, Nat.mul_comm (2 ^ k), ← hsplit'] at hmul
      omega
    rw [htwice, Nat.add_mul_mod_self_left, Nat.mod_eq_of_lt hfit, h.carry]
    omega

/-- One turn. -/
theorem Dividing.turn {n d : BitVec 64} {k Q : Nat} {t : DivState}
    (h : Dividing n d (k + 1) Q t) (hk : k < 64)
    (hfit : d.toNat ≤ 2 ^ 63 ∨ 2 ^ 63 ≤ n.toNat / 2 ^ k - 2 * Q * d.toNat) :
    ∃ Q', Dividing n d k Q' (divTurn d t) := by
  have hQ := h.small
  have hd := d.isLt
  have hn := n.isLt
  obtain ⟨hbit, hquot⟩ := h.next_bit hk
  obtain ⟨hr, hq⟩ := shifted_state t (by rw [h.carry]; exact Nat.mod_lt _ (by decide))
  rw [hquot] at hq
  rw [hbit] at hr
  have hle : n.toNat / 2 ^ k ≤ n.toNat := Nat.div_le_self _ _
  have hhalf : n.toNat / 2 ^ k = 2 * (Q * d.toNat + t.r.all.toNat) + n.toNat / 2 ^ k % 2 := by
    have hdiv : n.toNat / 2 ^ k / 2 = n.toNat / 2 ^ (k + 1) := by
      rw [Nat.div_div_eq_div_mul, ← Nat.pow_succ]
    rw [← h.split, ← hdiv]
    exact (Nat.div_add_mod _ 2).symm
  -- the remainder before the subtraction
  obtain ⟨m, hm⟩ : ∃ m, 2 * t.r.all.toNat + n.toNat / 2 ^ k % 2 = m := ⟨_, rfl⟩
  rw [hm] at hr
  have hrem := h.remainder
  have hsum : n.toNat / 2 ^ k = 2 * Q * d.toNat + m := by
    rw [Nat.mul_assoc]
    omega
  have hmn : (BitVec.ofNat 64 m).toNat = m := by
    rw [BitVec.toNat_ofNat]
    exact Nat.mod_eq_of_lt (by omega)
  have hmask := compare_sign (d := d) (r := BitVec.ofNat 64 m) (by omega)
    (hfit.imp_right fun hf => by omega)
  rw [hmn] at hmask
  have hpow : 2 ^ (64 - k) = 2 * 2 ^ (64 - (k + 1)) := two_pow_of_add (x := 1) (by omega)
  by_cases hge : d.toNat ≤ m
  · have hturn : divTurn d t = ⟨⟨(t.q.high <<< 1) ||| (t.q.low >>> 31),
        (t.q.low <<< 1) ||| t.carry⟩, .ofAll (BitVec.ofNat 64 m - d), 1#32⟩ := by
      rw [if_pos hge] at hmask
      simp only [divTurn, hr, hmask, BitVec.and_allOnes]
      rfl
    have hval : (BitVec.ofNat 64 m - d).toNat = m - d.toNat := by
      rw [BitVec.toNat_sub, hmn]
      omega
    refine ⟨2 * Q + 1, ?_⟩
    rw [hturn]
    refine ⟨?_, ?_, ?_, ?_, ?_⟩
    · simp only [Udwords.all_ofAll, hval]
      rw [hsum, Nat.add_mul, Nat.one_mul]
      omega
    · simp only [Udwords.all_ofAll, hval]
      omega
    · simp only [hq]
      omega
    · simp only [BitVec.toNat_ofNat]
      omega
    · omega
  · have hturn : divTurn d t = ⟨⟨(t.q.high <<< 1) ||| (t.q.low >>> 31),
        (t.q.low <<< 1) ||| t.carry⟩, .ofAll (BitVec.ofNat 64 m), 0#32⟩ := by
      rw [if_neg hge] at hmask
      simp only [divTurn, hr, hmask, BitVec.and_zero, BitVec.sub_zero]
      rfl
    refine ⟨2 * Q, ?_⟩
    rw [hturn]
    refine ⟨?_, ?_, ?_, ?_, ?_⟩
    · simp only [Udwords.all_ofAll, hmn]
      exact hsum
    · simp only [Udwords.all_ofAll, hmn]
      omega
    · simp only [hq]
      omega
    · simp only [BitVec.toNat_ofNat]
      omega
    · omega

theorem Dividing.loop {n d : BitVec 64} (hd : d.toNat ≤ 2 ^ 63) {k Q : Nat} {t : DivState}
    (h : Dividing n d k Q t) (hk : k ≤ 64) : ∃ Q', Dividing n d 0 Q' (divLoop d k t) := by
  induction k generalizing Q t with
  | zero => exact ⟨Q, h⟩
  | succ k ih =>
    obtain ⟨Q', h'⟩ := h.turn (by omega) (Or.inl hd)
    exact ih h' (by omega)

section Rest
variable {n d : BitVec 64} {sr : BitVec 32} {q r : Udwords}

/-- When the loop has ended, the quotient takes in the carry. -/
theorem Dividing.result {Q : Nat} {t : DivState} (h : Dividing n d 0 Q t) :
    (t.q.all <<< 1 ||| t.carry.setWidth 64, t.r.all) = (n / d, n % d) := by
  have hn := n.isLt
  have hpos : 0 < d.toNat := Nat.lt_of_le_of_lt (Nat.zero_le _) h.remainder
  have hsplit : n.toNat = t.r.all.toNat + d.toNat * Q := by
    have hs := h.split
    rw [Nat.pow_zero, Nat.div_one] at hs
    rw [hs, Nat.mul_comm, Nat.add_comm]
  have hQ : n.toNat / d.toNat = Q := by
    rw [hsplit, Nat.add_mul_div_left _ _ hpos, Nat.div_eq_of_lt h.remainder, Nat.zero_add]
  have hR : n.toNat % d.toNat = t.r.all.toNat := by
    rw [hsplit, Nat.add_mul_mod_self_left, Nat.mod_eq_of_lt h.remainder]
  have hle : Q ≤ n.toNat := by
    rw [← hQ]
    exact Nat.div_le_self _ _
  have hq : t.q.all.toNat = Q / 2 := by
    rw [h.quotient, Nat.pow_zero, Nat.mod_one, Nat.zero_mul, Nat.zero_add]
  have hc : (t.carry.setWidth 64).toNat = Q % 2 := by
    rw [BitVec.toNat_setWidth_of_le (by decide), h.carry]
  have hshift : (t.q.all <<< 1).toNat = (Q / 2) <<< 1 := by
    rw [BitVec.toNat_shiftLeft, hq, Nat.shiftLeft_eq]
    omega
  refine Prod.ext (BitVec.eq_of_toNat_eq ?_) (BitVec.eq_of_toNat_eq ?_)
  · rw [BitVec.toNat_or, hshift, hc,
      ← Nat.shiftLeft_add_eq_or_of_lt (show Q % 2 < 2 ^ 1 from Nat.mod_lt _ (by decide)),
      Nat.shiftLeft_eq, BitVec.toNat_udiv, hQ]
    omega
  · rw [BitVec.toNat_umod, hR]

/-- The loop divides, if it starts with a remainder below the divisor. A divisor of 64
bits is compared only once. -/
theorem divRest_exact (hs : Started n sr.toNat (q, r)) (h1 : 1 ≤ sr.toNat) (h2 : sr.toNat < 64)
    (hlt : n.toNat / 2 ^ sr.toNat < d.toNat)
    (hfit : d.toNat ≤ 2 ^ 63 ∨ (sr.toNat = 1 ∧ 2 ^ 63 ≤ n.toNat)) :
    divRest d sr q r = (n / d, n % d) := by
  have hstart : Dividing n d sr.toNat 0 ⟨q, r, 0#32⟩ := by
    refine ⟨?_, ?_, ?_, rfl, Nat.pow_pos (by decide)⟩
    · rw [Nat.zero_mul, Nat.zero_add]
      exact hs.remainder.symm
    · rw [hs.remainder]
      exact hlt
    · rw [Nat.zero_div, Nat.add_zero]
      exact hs.quotient
  have hend : ∃ Q, Dividing n d 0 Q (divLoop d sr.toNat ⟨q, r, 0#32⟩) := by
    rcases hfit with hd | ⟨hone, hn⟩
    · exact hstart.loop hd (by omega)
    · rw [hone] at hstart ⊢
      exact hstart.turn (by decide) (Or.inr (by simpa using hn))
  obtain ⟨Q, hQ⟩ := hend
  exact hQ.result

end Rest

/-! ## The cases of the division -/

theorem quotient_fits {n d x y s : Nat} (hn : n < 2 ^ x) (hd : 2 ^ y ≤ d) (h : x ≤ s + y) :
    n / 2 ^ s < d := by
  apply Nat.div_lt_of_lt_mul
  calc n < 2 ^ x := hn
    _ ≤ 2 ^ (s + y) := Nat.pow_le_pow_right (by decide) h
    _ = 2 ^ s * 2 ^ y := Nat.pow_add 2 s y
    _ ≤ 2 ^ s * d := Nat.mul_le_mul_left _ hd

/-- The difference of two counts: it wraps if the divisor is the longer word. -/
theorem clz_sub {x y : BitVec 32} (hx : x ≠ 0#32) (hy : y ≠ 0#32) :
    (31 < (clzsi2 x - clzsi2 y).toNat ∧ y.toNat < x.toNat) ∨
      ((clzsi2 x - clzsi2 y).toNat ≤ 31 ∧
        (clzsi2 x - clzsi2 y).toNat + (clzsi2 y).toNat = (clzsi2 x).toNat) := by
  obtain ⟨hx1, hx2, hx3⟩ := clzsi2_bounds hx
  obtain ⟨hy1, hy2, hy3⟩ := clzsi2_bounds hy
  rw [BitVec.toNat_sub]
  by_cases h : (clzsi2 x).toNat < (clzsi2 y).toNat
  · refine Or.inl ⟨by omega, ?_⟩
    calc y.toNat < 2 ^ (32 - (clzsi2 y).toNat) := hy3
      _ ≤ 2 ^ (31 - (clzsi2 x).toNat) := Nat.pow_le_pow_right (by decide) (by omega)
      _ ≤ x.toNat := hx2
  · exact Or.inr (by omega)

section Cases
variable {a b : BitVec 64}

theorem toNat_halves (v : BitVec 64) :
    v.toNat = (Udwords.ofAll v).high.toNat * 2 ^ 32 + (Udwords.ofAll v).low.toNat := by
  rw [← Udwords.all_toNat, Udwords.all_ofAll]

/-- How long a double word with a nonzero upper half is. -/
theorem long_bounds (h : (Udwords.ofAll a).high ≠ 0#32) :
    2 ^ (63 - (clzsi2 (Udwords.ofAll a).high).toNat) ≤ a.toNat ∧
      a.toNat < 2 ^ (64 - (clzsi2 (Udwords.ofAll a).high).toNat) := by
  obtain ⟨h1, h2, h3⟩ := clzsi2_bounds h
  have hlow := (Udwords.ofAll a).low.isLt
  have hall := toNat_halves a
  rw [show 63 - (clzsi2 (Udwords.ofAll a).high).toNat =
      31 - (clzsi2 (Udwords.ofAll a).high).toNat + 32 by omega, Nat.pow_add,
    show 64 - (clzsi2 (Udwords.ofAll a).high).toNat =
      32 - (clzsi2 (Udwords.ofAll a).high).toNat + 32 by omega, Nat.pow_add]
  constructor
  · have := Nat.mul_le_mul_right (2 ^ 32) h2
    omega
  · have := Nat.mul_le_mul_right (2 ^ 32) (Nat.succ_le_of_lt h3)
    omega

theorem result_of {q r : BitVec 64} (hq : q.toNat = a.toNat / b.toNat)
    (hr : r.toNat = a.toNat % b.toNat) : some (q, r) = some (a / b, a % b) := by
  have hq' : q = a / b := BitVec.eq_of_toNat_eq (hq.trans BitVec.toNat_udiv.symm)
  have hr' : r = a % b := BitVec.eq_of_toNat_eq (hr.trans BitVec.toNat_umod.symm)
  rw [hq', hr']

/-- A dividend that is smaller than the divisor. -/
theorem result_of_lt (h : a.toNat < b.toNat) : some (0#64, a) = some (a / b, a % b) :=
  result_of (Nat.div_eq_of_lt h).symm (Nat.mod_eq_of_lt h).symm

theorem succ_toNat {sr : BitVec 32} (h : sr.toNat ≤ 31) : (sr + 1#32).toNat = sr.toNat + 1 := by
  rw [BitVec.toNat_add, BitVec.toNat_ofNat]
  omega

/-- The loop after a start by the lengths of the upper halves. -/
theorem long_exact (hn : (Udwords.ofAll a).high ≠ 0#32) (hd : (Udwords.ofAll b).high ≠ 0#32)
    {sr : BitVec 32} {q r : Udwords}
    (hsr : sr = clzsi2 (Udwords.ofAll b).high - clzsi2 (Udwords.ofAll a).high)
    (hle : sr.toNat ≤ 31) (hs : Started a (sr + 1#32).toNat (q, r)) :
    divRest b (sr + 1#32) q r = (a / b, a % b) := by
  obtain ⟨hb1, -, -⟩ := clzsi2_bounds hd
  obtain ⟨hn2, hn3⟩ := long_bounds hn
  obtain ⟨hd2, hd3⟩ := long_bounds hd
  have hsucc := succ_toNat hle
  have hlen : sr.toNat + (clzsi2 (Udwords.ofAll a).high).toNat =
      (clzsi2 (Udwords.ofAll b).high).toNat := by
    rcases clz_sub hd hn with ⟨hlarge, -⟩ | ⟨-, hlen⟩
    · rw [← hsr] at hlarge
      omega
    · rwa [← hsr] at hlen
  refine divRest_exact hs (by omega) (by omega) (quotient_fits hn3 hd2 (by omega)) ?_
  by_cases hz : (clzsi2 (Udwords.ofAll b).high).toNat = 0
  · refine Or.inr ⟨by omega, ?_⟩
    rwa [show 63 - (clzsi2 (Udwords.ofAll a).high).toNat = 63 by omega] at hn2
  · refine Or.inl (Nat.le_of_lt (Nat.lt_of_lt_of_le hd3 ?_))
    exact Nat.pow_le_pow_right (by decide) (by omega)

end Cases

/-! ## Every case divides -/

theorem and_pow_pred {k : Nat} (hk : k < 32) (x : BitVec 32) :
    (x &&& (BitVec.ofNat 32 (2 ^ k) - 1#32)).toNat = x.toNat % 2 ^ k := by
  have hpos : 0 < 2 ^ k := Nat.pow_pos (by decide)
  have hlt : 2 ^ k < 2 ^ 32 := Nat.pow_lt_pow_right (by decide) hk
  have hpred : (BitVec.ofNat 32 (2 ^ k) - 1#32).toNat = 2 ^ k - 1 := by
    rw [BitVec.toNat_sub, BitVec.toNat_ofNat, BitVec.toNat_ofNat, Nat.mod_eq_of_lt hlt]
    omega
  rw [BitVec.toNat_and, hpred, Nat.and_two_pow_sub_one_eq_mod]

theorem toNat_pow {k : Nat} (hk : k < 32) : (BitVec.ofNat 32 (2 ^ k)).toNat = 2 ^ k := by
  rw [BitVec.toNat_ofNat, Nat.mod_eq_of_lt (Nat.pow_lt_pow_right (by decide) hk)]

theorem toNat_amount {k : Nat} (hk : k < 32) : (BitVec.ofNat 32 k).toNat = k := by
  rw [BitVec.toNat_ofNat]
  exact Nat.mod_eq_of_lt (by omega)

section Cases
variable {a b : BitVec 64}

theorem toNat_of_high_zero (h : (Udwords.ofAll a).high = 0#32) :
    a.toNat = (Udwords.ofAll a).low.toNat := by
  rw [toNat_halves a, h, BitVec.toNat_ofNat, Nat.zero_mod, Nat.zero_mul, Nat.zero_add]

theorem toNat_of_low_zero (h : (Udwords.ofAll a).low = 0#32) :
    a.toNat = (Udwords.ofAll a).high.toNat * 2 ^ 32 := by
  rw [toNat_halves a, h, BitVec.toNat_ofNat, Nat.zero_mod, Nat.add_zero]

theorem short_exact (hn : (Udwords.ofAll a).high = 0#32) (hd : (Udwords.ofAll b).high = 0#32) :
    some (((Udwords.ofAll a).low / (Udwords.ofAll b).low).setWidth 64,
      ((Udwords.ofAll a).low % (Udwords.ofAll b).low).setWidth 64) = some (a / b, a % b) := by
  apply result_of
  · rw [BitVec.toNat_setWidth_of_le (by decide), BitVec.toNat_udiv, toNat_of_high_zero hn,
      toNat_of_high_zero hd]
  · rw [BitVec.toNat_setWidth_of_le (by decide), BitVec.toNat_umod, toNat_of_high_zero hn,
      toNat_of_high_zero hd]

theorem below_exact (hn : (Udwords.ofAll a).high = 0#32) (hd : (Udwords.ofAll b).high ≠ 0#32) :
    some (0#64, (Udwords.ofAll a).low.setWidth 64) = some (a / b, a % b) := by
  have ha : (Udwords.ofAll a).low.setWidth 64 = a := by
    apply BitVec.eq_of_toNat_eq
    rw [BitVec.toNat_setWidth_of_le (by decide), toNat_of_high_zero hn]
  have hpos : (Udwords.ofAll b).high.toNat ≠ 0 := fun he => hd (BitVec.eq_of_toNat_eq he)
  have hlow := (Udwords.ofAll a).low.isLt
  rw [ha]
  apply result_of_lt
  rw [toNat_of_high_zero hn, toNat_halves b]
  omega

theorem upper_exact (hn : (Udwords.ofAll a).low = 0#32) (hd : (Udwords.ofAll b).low = 0#32) :
    some (((Udwords.ofAll a).high / (Udwords.ofAll b).high).setWidth 64,
      Udwords.all ⟨(Udwords.ofAll a).high % (Udwords.ofAll b).high, 0#32⟩) =
      some (a / b, a % b) := by
  apply result_of
  · rw [BitVec.toNat_setWidth_of_le (by decide), BitVec.toNat_udiv, toNat_of_low_zero hn,
      toNat_of_low_zero hd, Nat.mul_div_mul_right _ _ (by decide)]
  · rw [Udwords.all_toNat, BitVec.toNat_umod, toNat_of_low_zero hn, toNat_of_low_zero hd,
      Nat.mul_mod_mul_right]
    exact Nat.add_zero _

/-- The divisor is a power of two from `2 ^ 32` on. -/
theorem upper_pow_exact (hd : (Udwords.ofAll b).low = 0#32) (hb : (Udwords.ofAll b).high ≠ 0#32)
    (hpow : (Udwords.ofAll b).high &&& ((Udwords.ofAll b).high - 1#32) = 0#32) :
    some (((Udwords.ofAll a).high >>> ctzsi2 (Udwords.ofAll b).high).setWidth 64,
      Udwords.all ⟨(Udwords.ofAll a).high &&& ((Udwords.ofAll b).high - 1#32),
        (Udwords.ofAll a).low⟩) = some (a / b, a % b) := by
  obtain ⟨k, hk, he⟩ := power_of_test hb hpow
  obtain ⟨hhigh, hlow⟩ := Udwords.ofAll_toNat a
  have hdiv : b.toNat = 2 ^ 32 * 2 ^ k := by
    rw [toNat_of_low_zero hd, he, toNat_pow hk, Nat.mul_comm]
  rw [he, ctzsi2_pow hk]
  apply result_of
  · rw [BitVec.toNat_setWidth_of_le (by decide), BitVec.ushiftRight_eq', toNat_amount hk,
      BitVec.toNat_ushiftRight, Nat.shiftRight_eq_div_pow, hhigh, hdiv, Nat.div_div_eq_div_mul]
  · simp only [Udwords.all_toNat, and_pow_pred hk, hhigh, hlow]
    rw [hdiv, Nat.mod_mul, Nat.add_comm, Nat.mul_comm]

/-- The divisor is a power of two below `2 ^ 32`. -/
theorem lower_pow_exact (hd : (Udwords.ofAll b).high = 0#32) (hb : (Udwords.ofAll b).low ≠ 0#32)
    (hpow : (Udwords.ofAll b).low &&& ((Udwords.ofAll b).low - 1#32) = 0#32) :
    (if (Udwords.ofAll b).low = 1#32 then
      some (a, ((Udwords.ofAll a).low &&& ((Udwords.ofAll b).low - 1#32)).setWidth 64)
    else some (Udwords.all ⟨(Udwords.ofAll a).high >>> ctzsi2 (Udwords.ofAll b).low,
        ((Udwords.ofAll a).high <<< (32#32 - ctzsi2 (Udwords.ofAll b).low)) |||
          ((Udwords.ofAll a).low >>> ctzsi2 (Udwords.ofAll b).low)⟩,
      ((Udwords.ofAll a).low &&& ((Udwords.ofAll b).low - 1#32)).setWidth 64)) =
      some (a / b, a % b) := by
  obtain ⟨k, hk, he⟩ := power_of_test hb hpow
  obtain ⟨hhigh, hlow⟩ := Udwords.ofAll_toNat a
  have hdiv : b.toNat = 2 ^ k := by
    rw [toNat_of_high_zero hd, he, toNat_pow hk]
  have hrem : (((Udwords.ofAll a).low &&& ((Udwords.ofAll b).low - 1#32)).setWidth 64).toNat =
      a.toNat % b.toNat := by
    rw [BitVec.toNat_setWidth_of_le (by decide), he, and_pow_pred hk, hlow, hdiv]
    exact Nat.mod_mod_of_dvd _ ⟨_, two_pow_split (Nat.le_of_lt hk)⟩
  split
  · next hone =>
    have hb1 : b.toNat = 1 := by
      rw [toNat_of_high_zero hd, hone]
      rfl
    exact result_of (by rw [hb1, Nat.div_one]) hrem
  · refine result_of ?_ hrem
    have hamount : (32#32 - BitVec.ofNat 32 k).toNat = 32 - k := by
      rw [BitVec.toNat_sub, toNat_amount hk, BitVec.toNat_ofNat]
      omega
    have hright := shifted_right (Nat.le_of_lt hk) (.ofAll a)
    rw [Udwords.all_ofAll] at hright
    rw [he, ctzsi2_pow hk, Udwords.all_toNat]
    simp only [BitVec.shiftLeft_eq', BitVec.ushiftRight_eq', hamount, toNat_amount hk,
      shift_join (Nat.le_of_lt hk), BitVec.toNat_ushiftRight, Nat.shiftRight_eq_div_pow]
    rw [hright, hdiv]

end Cases

section Loops
variable {a b : BitVec 64}

theorem lt_of_high_lt (h : (Udwords.ofAll a).high.toNat < (Udwords.ofAll b).high.toNat) :
    a.toNat < b.toNat := by
  have hlow := (Udwords.ofAll a).low.isLt
  rw [toNat_halves a, toNat_halves b]
  omega

/-- The start for a shift of at most 32. -/
theorem start_upto {sr : BitVec 32} (h1 : 1 ≤ sr.toNat) (h2 : sr.toNat ≤ 32) :
    Started a sr.toNat (if sr = 32#32 then startAt (.ofAll a) else startBelow (.ofAll a) sr) := by
  split
  · next he =>
    rw [he]
    exact startAt_started
  · next hne =>
    have hlt : sr.toNat ≠ 32 := fun he => hne (BitVec.eq_of_toNat_eq he)
    exact startBelow_started h1 (by omega)

/-- The start for any shift. -/
theorem start_any {sr : BitVec 32} (h1 : 1 ≤ sr.toNat) (h2 : sr.toNat < 64) :
    Started a sr.toNat (if sr = 32#32 then startAt (.ofAll a)
      else if sr < 32#32 then startBelow (.ofAll a) sr else startAbove (.ofAll a) sr) := by
  by_cases hle : sr.toNat ≤ 32
  · have hupto := start_upto (a := a) h1 hle
    split
    · next he => rwa [if_pos he] at hupto
    · next hne =>
      have hlt : sr.toNat ≠ 32 := fun he => hne (BitVec.eq_of_toNat_eq he)
      rw [if_neg hne] at hupto
      rwa [if_pos (BitVec.lt_def.mpr (show sr.toNat < 32 by omega))]
  · have hne : sr ≠ 32#32 := fun he => hle (by rw [he]; decide)
    have hnlt : ¬ sr < 32#32 := fun hlt => hle (Nat.le_of_lt (BitVec.lt_def.mp hlt))
    rw [if_neg hne, if_neg hnlt]
    exact startAbove_started (by omega) h2

/-- A word of one bit is a power of two. -/
theorem clz_lt_of_not_power {x : BitVec 32} (h0 : x ≠ 0#32) (h : ¬ x &&& (x - 1#32) = 0#32) :
    (clzsi2 x).toNat < 31 := by
  obtain ⟨h1, h2, h3⟩ := clzsi2_bounds h0
  apply Nat.lt_of_le_of_ne h1
  intro he
  rw [he] at h2 h3
  have hone : x = 1#32 := by
    apply BitVec.eq_of_toNat_eq
    rw [BitVec.toNat_ofNat]
    omega
  rw [hone] at h
  exact h rfl

section Long
variable (hn : (Udwords.ofAll a).high ≠ 0#32) (hd : (Udwords.ofAll b).high ≠ 0#32)
include hn hd

/-- Both upper halves are not zero. -/
theorem full_exact :
    (if 31#32 < clzsi2 (Udwords.ofAll b).high - clzsi2 (Udwords.ofAll a).high then some (0#64, a)
    else
      let sr := clzsi2 (Udwords.ofAll b).high - clzsi2 (Udwords.ofAll a).high + 1#32
      let (q, r) := if sr = 32#32 then startAt (.ofAll a) else startBelow (.ofAll a) sr
      some (divRest b sr q r)) = some (a / b, a % b) := by
  split
  · next hlarge =>
    have hlarge' := BitVec.lt_def.mp hlarge
    rcases clz_sub hd hn with ⟨-, hlt⟩ | ⟨hsmall, -⟩
    · exact result_of_lt (lt_of_high_lt hlt)
    · exact absurd hlarge' (Nat.not_lt.mpr hsmall)
  · next hsmall =>
    have hle : (clzsi2 (Udwords.ofAll b).high - clzsi2 (Udwords.ofAll a).high).toNat ≤ 31 :=
      Nat.not_lt.mp fun h => hsmall (BitVec.lt_def.mpr h)
    have hsucc := succ_toNat hle
    exact congrArg some (long_exact hn hd rfl hle (start_upto (by omega) (by omega)))

/-- The lower half of the divisor is zero, and the divisor is no power of two. -/
theorem upper_loop_exact
    (hpow : ¬ (Udwords.ofAll b).high &&& ((Udwords.ofAll b).high - 1#32) = 0#32) :
    (if 30#32 < clzsi2 (Udwords.ofAll b).high - clzsi2 (Udwords.ofAll a).high then some (0#64, a)
    else
      let sr := clzsi2 (Udwords.ofAll b).high - clzsi2 (Udwords.ofAll a).high + 1#32
      let (q, r) := startBelow (.ofAll a) sr
      some (divRest b sr q r)) = some (a / b, a % b) := by
  split
  · next hlarge =>
    have hlarge' : 30 < (clzsi2 (Udwords.ofAll b).high - clzsi2 (Udwords.ofAll a).high).toNat :=
      BitVec.lt_def.mp hlarge
    rcases clz_sub hd hn with ⟨-, hlt⟩ | ⟨hsmall, hlen⟩
    · exact result_of_lt (lt_of_high_lt hlt)
    · -- a difference of 31 needs a divisor of one bit
      have hlong := clz_lt_of_not_power hd hpow
      omega
  · next hsmall =>
    have hle : (clzsi2 (Udwords.ofAll b).high - clzsi2 (Udwords.ofAll a).high).toNat ≤ 30 :=
      Nat.not_lt.mp fun h => hsmall (BitVec.lt_def.mpr h)
    have hle' := Nat.le_trans hle (show 30 ≤ 31 by decide)
    have hsucc := succ_toNat hle'
    exact congrArg some (long_exact hn hd rfl hle' (startBelow_started (by omega) (by omega)))

end Long

/-- The divisor has only a lower half. -/
theorem lower_loop_exact (hn : (Udwords.ofAll a).high ≠ 0#32)
    (hd : (Udwords.ofAll b).high = 0#32) (hb : (Udwords.ofAll b).low ≠ 0#32)
    (hpow : ¬ (Udwords.ofAll b).low &&& ((Udwords.ofAll b).low - 1#32) = 0#32) :
    (let sr := 1#32 + 32#32 + clzsi2 (Udwords.ofAll b).low - clzsi2 (Udwords.ofAll a).high
      let (q, r) := if sr = 32#32 then startAt (.ofAll a)
        else if sr < 32#32 then startBelow (.ofAll a) sr else startAbove (.ofAll a) sr
      some (divRest b sr q r)) = some (a / b, a % b) := by
  obtain ⟨-, hb2, -⟩ := clzsi2_bounds hb
  obtain ⟨hn1, -, -⟩ := clzsi2_bounds hn
  obtain ⟨-, hn3⟩ := long_bounds hn
  have hlong := clz_lt_of_not_power hb hpow
  have hsr : (1#32 + 32#32 + clzsi2 (Udwords.ofAll b).low - clzsi2 (Udwords.ofAll a).high).toNat =
      33 + (clzsi2 (Udwords.ofAll b).low).toNat - (clzsi2 (Udwords.ofAll a).high).toNat := by
    rw [BitVec.toNat_sub, BitVec.toNat_add]
    have h33 : (1#32 + 32#32).toNat = 33 := rfl
    omega
  have hval := toNat_of_high_zero hd
  have hlow := (Udwords.ofAll b).low.isLt
  rw [← hval] at hb2
  exact congrArg some (divRest_exact (start_any (by omega) (by omega)) (by omega) (by omega)
    (quotient_fits hn3 hb2 (by omega)) (Or.inl (by omega)))

end Loops

/-- Unsigned division is exact. -/
theorem udivmoddi4_eq (a b : BitVec 64) :
    udivmoddi4 a b = if b = 0#64 then none else some (a / b, a % b) := by
  have hzero : b = 0#64 ↔ (Udwords.ofAll b).high = 0#32 ∧ (Udwords.ofAll b).low = 0#32 := by
    constructor
    · rintro rfl
      exact ⟨rfl, rfl⟩
    · rintro ⟨hh, hl⟩
      apply BitVec.eq_of_toNat_eq
      rw [toNat_of_high_zero hh, hl]
      rfl
  unfold udivmoddi4
  by_cases hb : b = 0#64
  · subst hb
    rw [if_pos rfl]
    by_cases hn : (Udwords.ofAll a).high = 0#32
    · simp only [hn, if_true]
      rfl
    · simp only [hn, if_false]
      rfl
  · rw [if_neg hb]
    by_cases hn : (Udwords.ofAll a).high = 0#32
    · simp only [hn, if_true]
      by_cases hh : (Udwords.ofAll b).high = 0#32
      · have hl : (Udwords.ofAll b).low ≠ 0#32 := fun hl => hb (hzero.mpr ⟨hh, hl⟩)
        rw [if_pos hh, if_neg hl]
        exact short_exact hn hh
      · rw [if_neg hh]
        exact below_exact hn hh
    · simp only [hn, if_false]
      by_cases hl : (Udwords.ofAll b).low = 0#32
      · have hh : (Udwords.ofAll b).high ≠ 0#32 := fun hh => hb (hzero.mpr ⟨hh, hl⟩)
        rw [if_pos hl, if_neg hh]
        split
        · next h0 => exact upper_exact h0 hl
        · split
          · next hpow => exact upper_pow_exact hl hh hpow
          · next hpow => exact upper_loop_exact hn hh hpow
      · rw [if_neg hl]
        by_cases hh : (Udwords.ofAll b).high = 0#32
        · rw [if_pos hh]
          split
          · next hpow => exact lower_pow_exact hh hl hpow
          · next hpow => exact lower_loop_exact hn hh hl hpow
        · rw [if_neg hh]
          exact full_exact hn hh

/-! ## Signs -/

theorem negateIf_zero (x : BitVec 64) : negateIf 0#64 x = x := by
  rw [negateIf, BitVec.xor_zero, BitVec.sub_zero]

theorem negateIf_ones (x : BitVec 64) : negateIf (BitVec.allOnes 64) x = -x := by
  rw [negateIf, BitVec.xor_allOnes, BitVec.neg_eq_not_add, ← BitVec.neg_one_eq_allOnes,
    BitVec.sub_neg]

theorem negateIf_sign (v x : BitVec 64) :
    negateIf (v.sshiftRight 63) x = if v.msb then -x else x := by
  rw [sign_word]
  split
  · exact negateIf_ones x
  · exact negateIf_zero x

theorem negateIf_signs (a b x : BitVec 64) :
    negateIf (a.sshiftRight 63 ^^^ b.sshiftRight 63) x = if a.msb = b.msb then x else -x := by
  rw [sign_word, sign_word]
  cases a.msb <;> cases b.msb
  · exact negateIf_zero x
  · exact negateIf_ones x
  · exact negateIf_ones x
  · exact negateIf_zero x

theorem magnitude_eq_zero (b : BitVec 64) : (if b.msb then -b else b) = 0#64 ↔ b = 0#64 := by
  split
  · exact BitVec.neg_eq_zero_iff
  · rfl

theorem divdi3_eq (a b : BitVec 64) :
    divdi3 a b = if b = 0#64 then none else some (a.sdiv b) := by
  simp only [divdi3, negateIf_sign, negateIf_signs, udivmoddi4_eq, magnitude_eq_zero]
  split
  · rfl
  · rw [BitVec.sdiv_eq]
    cases a.msb <;> cases b.msb <;> rfl

theorem moddi3_eq (a b : BitVec 64) :
    moddi3 a b = if b = 0#64 then none else some (a.srem b) := by
  simp only [moddi3, negateIf_sign, udivmoddi4_eq, magnitude_eq_zero]
  split
  · rfl
  · rw [BitVec.srem_eq]
    cases a.msb <;> cases b.msb <;> rfl

theorem umod_eq_sub (x y : BitVec 64) : x % y = x - x / y * y := by
  refine BitVec.eq_sub_iff_add_eq.mpr (BitVec.eq_of_toNat_eq ?_)
  rw [BitVec.toNat_add, BitVec.toNat_mul, BitVec.toNat_udiv, BitVec.toNat_umod, Nat.add_mod_mod,
    Nat.mod_add_div', Nat.mod_eq_of_lt x.isLt]

/-- `__divmoddi4` takes the remainder from the quotient. -/
theorem sub_sdiv_mul (a b : BitVec 64) : a - a.sdiv b * b = a.srem b := by
  rw [BitVec.sdiv_eq, BitVec.srem_eq]
  cases a.msb <;> cases b.msb <;> simp only [BitVec.udiv_eq, umod_eq_sub] <;> ring

/-- Every function divides the numbers it is given, towards zero, and fails only for a
zero divisor; the one quotient that does not fit, of `-2 ^ 63` by -1, wraps around. -/
theorem int64_division_exact (a b : BitVec 64) :
    udivmoddi4 a b = (if b = 0#64 then none
        else some (BitVec.ofNat 64 (a.toNat / b.toNat), BitVec.ofNat 64 (a.toNat % b.toNat))) ∧
      udivdi3 a b = (if b = 0#64 then none else some (BitVec.ofNat 64 (a.toNat / b.toNat))) ∧
      umoddi3 a b = (if b = 0#64 then none else some (BitVec.ofNat 64 (a.toNat % b.toNat))) ∧
      divdi3 a b = (if b = 0#64 then none else some (BitVec.ofInt 64 (a.toInt.tdiv b.toInt))) ∧
      moddi3 a b = (if b = 0#64 then none else some (BitVec.ofInt 64 (a.toInt.tmod b.toInt))) ∧
      divmoddi4 a b = (if b = 0#64 then none
        else some (BitVec.ofInt 64 (a.toInt.tdiv b.toInt),
          BitVec.ofInt 64 (a.toInt.tmod b.toInt))) := by
  have hsdiv : BitVec.ofInt 64 (a.toInt.tdiv b.toInt) = a.sdiv b := by
    apply BitVec.eq_of_toInt_eq
    rw [BitVec.toInt_ofInt, BitVec.toInt_sdiv]
  have hsrem : BitVec.ofInt 64 (a.toInt.tmod b.toInt) = a.srem b := by
    rw [← BitVec.toInt_srem, BitVec.ofInt_toInt]
  rw [← BitVec.udiv_def, ← BitVec.umod_def, hsdiv, hsrem]
  refine ⟨udivmoddi4_eq a b, ?_, ?_, divdi3_eq a b, moddi3_eq a b, ?_⟩
  · rw [udivdi3, udivmoddi4_eq]
    split <;> rfl
  · rw [umoddi3, udivmoddi4_eq]
    split <;> rfl
  · rw [divmoddi4, divdi3_eq, ← sub_sdiv_mul]
    split <;> rfl

-- the least number divided by -1
example : divdi3 (BitVec.intMin 64) (-1#64) = some (BitVec.intMin 64) := by decide +kernel

end Klib
