import Mathlib.Algebra.Group.Nat.Defs
import AiOsoc.Assembly
import AiOsoc.Nemu.Muldiv

/-!
# Multiplication and division without the M extension

`am/src/riscv/npc/libgcc`: the routines the compiler calls on `rv32e`, as the
assembly is written, for `__riscv_xlen = 32`. On every pair of arguments they
return what the M extension of the reference emulator computes.
-/

namespace Libgcc

set_option autoImplicit false

open Rv32e Asm Line Nemu

/-! ## `muldi3.S` -/

inductive MulLabel where
  | __mulsi3 | L1 | L2
  deriving Repr, DecidableEq

def muldi3 : List (Line MulLabel) :=
  [label .__mulsi3,
   instr (mv a2 a0),
   instr (li a0 0#12),
   label .L1,
   instr (.opImm .and a3 a1 1#12),
   beqz a3 .L2,
   instr (.op .add a0 a0 a2),
   label .L2,
   instr (.shiftImm .srl a1 a1 1#5),
   instr (.shiftImm .sll a2 a2 1#5),
   bnez a1 .L1,
   instr ret]

/-! ## `div.S` -/

inductive DivLabel where
  | __divsi3 | __udivsi3 | __umodsi3 | __modsi3
  | L1 | L2 | L3 | L4 | L5 | L10 | L11 | L12 | L30 | L31 | L32
  deriving Repr, DecidableEq

def div : List (Line DivLabel) :=
  [label .__divsi3,
   bltz a0 .L10,
   bltz a1 .L11,
   -- Since the quotient is positive, fall into `__udivsi3`.
   label .__udivsi3,
   instr (mv a2 a1),
   instr (mv a1 a0),
   instr (li a0 (-1#12)),
   beqz a2 .L5,
   instr (li a3 1#12),
   bgeu a2 a1 .L2,
   label .L1,
   blez a2 .L2,
   instr (.shiftImm .sll a2 a2 1#5),
   instr (.shiftImm .sll a3 a3 1#5),
   bgtu a1 a2 .L1,
   label .L2,
   instr (li a0 0#12),
   label .L3,
   bltu a1 a2 .L4,
   instr (.op .sub a1 a1 a2),
   instr (.op .or a0 a0 a3),
   label .L4,
   instr (.shiftImm .srl a3 a3 1#5),
   instr (.shiftImm .srl a2 a2 1#5),
   bnez a3 .L3,
   label .L5,
   instr ret,
   label .__umodsi3,
   instr (mv t0 ra),
   call .__udivsi3,
   instr (mv a0 a1),
   instr (jr t0),
   label .L10,
   instr (neg a0 a0),
   -- Zero is handled as a negative so that the result will not be inverted.
   bgtz a1 .L12,
   instr (neg a1 a1),
   j .__udivsi3,
   label .L11,
   instr (neg a1 a1),
   label .L12,
   instr (mv t0 ra),
   call .__udivsi3,
   instr (neg a0 a0),
   instr (jr t0),
   label .__modsi3,
   instr (mv t0 ra),
   bltz a1 .L31,
   bltz a0 .L32,
   label .L30,
   call .__udivsi3,
   instr (mv a0 a1),
   instr (jr t0),
   label .L31,
   instr (neg a1 a1),
   bgez a0 .L30,
   label .L32,
   instr (neg a0 a0),
   call .__udivsi3,
   instr (neg a0 a1),
   instr (jr t0)]

/-- The routines of a file, loaded at an aligned address. -/
def load {Label : Type} [DecidableEq Label] (ls : List (Line Label)) {base : BitVec 32}
    (hb : base.toNat % 4 = 0) : Image := ⟨base, assemble ls, hb⟩

/-! ## Halves of a word -/

section Halves
variable (v u : BitVec 32)

theorem toNat_and_one : (v &&& 1#32).toNat = v.toNat % 2 := by
  rw [BitVec.toNat_and]
  exact Nat.and_one_is_mod _

theorem toNat_half : (v >>> 1).toNat = v.toNat / 2 := by
  rw [BitVec.toNat_ushiftRight, Nat.shiftRight_eq_div_pow]

theorem and_one_cases : v &&& 1#32 = 0#32 ∨ v &&& 1#32 = 1#32 := by
  have h := toNat_and_one v
  rcases Nat.mod_two_eq_zero_or_one v.toNat with h2 | h2
  · exact .inl (BitVec.eq_of_toNat_eq (h.trans h2))
  · exact .inr (BitVec.eq_of_toNat_eq (h.trans h2))

theorem halves : v = (v &&& 1#32) + (v >>> 1 + v >>> 1) := by
  apply BitVec.eq_of_toNat_eq
  rw [BitVec.toNat_add, BitVec.toNat_add, toNat_and_one, toNat_half]
  have := v.isLt
  omega

theorem mul_halves : v * u = (v &&& 1#32) * u + v >>> 1 * u <<< 1 := by
  rw [shiftLeft_one]
  conv_lhs => rw [halves v]
  grind

end Halves

/-! ## The multiplication -/

section Mul
variable {base : BitVec 32} (hb : base.toNat % 4 = 0) (h : Hart) {x : Reg → BitVec 32}

/-- One pass of the loop, up to its branch. -/
theorem mul_pass (hx : x 0#5 = 0#32) (v0 v1 v2 v3 : BitVec 32) :
    (load muldi3 hb).Leads ((load muldi3 hb).inWindow h x 2 v0 v1 v2 v3)
      ((load muldi3 hb).inWindow h x 7 (v0 + (v1 &&& 1#32) * v2) (v1 >>> 1) (v2 <<< 1)
        (v1 &&& 1#32)) := by
  have hshifts : ∀ u, (load muldi3 hb).Leads
      ((load muldi3 hb).inWindow h x 5 u v1 v2 (v1 &&& 1#32))
      ((load muldi3 hb).inWindow h x 7 u (v1 >>> 1) (v2 <<< 1) (v1 &&& 1#32)) := by
    intro u
    refine .shiftImm rfl (by decide) rfl (Window.set_a1 ..) ?_
    refine .shiftImm rfl (by decide) rfl (Window.set_a2 ..) ?_
    exact .refl
  refine .opImm rfl (by decide) rfl (Window.set_a3 ..) ?_
  rcases and_one_cases v1 with hbit | hbit
  · refine .taken (n := 5) rfl (by decide) (decide_eq_true (hbit.trans hx.symm)) ?_
    have hv : v0 + (v1 &&& 1#32) * v2 = v0 := by
      rw [hbit, BitVec.zero_mul, BitVec.add_zero]
    rw [hv]
    exact hshifts v0
  · refine .fallThrough rfl (decide_eq_false ?_) ?_
    · intro he
      exact absurd (hbit.symm.trans (he.trans hx)) (by decide)
    refine .op rfl (by decide) rfl (Window.set_a0 ..) ?_
    have hv : v0 + (v1 &&& 1#32) * v2 = v0 + v2 := by
      rw [hbit, BitVec.one_mul]
    rw [hv]
    exact hshifts (v0 + v2)

/-- The loop adds the product of `a1` and `a2` to `a0`. -/
theorem mul_loop (hx : x 0#5 = 0#32) (v0 v1 v2 v3 : BitVec 32) : ∃ u2 u3,
    (load muldi3 hb).Leads ((load muldi3 hb).inWindow h x 2 v0 v1 v2 v3)
      ((load muldi3 hb).inWindow h x 8 (v0 + v1 * v2) 0#32 u2 u3) := by
  induction hn : v1.toNat using Nat.strong_induction_on generalizing v0 v1 v2 v3 with
  | h n ih =>
    have hpass := mul_pass hb h hx v0 v1 v2 v3
    have hsum : v0 + v1 * v2 = v0 + (v1 &&& 1#32) * v2 + v1 >>> 1 * v2 <<< 1 := by
      rw [mul_halves v1 v2, BitVec.add_assoc]
    by_cases hz : v1 >>> 1 = 0#32
    · refine ⟨v2 <<< 1, v1 &&& 1#32, hpass.trans (.fallThrough rfl (decide_eq_false ?_) ?_)⟩
      · intro hne
        exact hne (hz.trans hx.symm)
      · rw [hsum, hz, BitVec.zero_mul, BitVec.add_zero]
        exact .refl
    · have hlt : (v1 >>> 1).toNat < n := by
        have hpos : (v1 >>> 1).toNat ≠ 0 := fun h0 => hz (BitVec.eq_of_toNat_eq h0)
        rw [toNat_half] at hpos ⊢
        omega
      obtain ⟨u2, u3, hrest⟩ := ih _ hlt (v0 + (v1 &&& 1#32) * v2) (v1 >>> 1) (v2 <<< 1)
        (v1 &&& 1#32) rfl
      rw [← hsum] at hrest
      refine ⟨u2, u3, hpass.trans (.taken (n := 2) rfl (by decide) (decide_eq_true ?_) hrest)⟩
      intro he
      exact hz (he.trans hx)

end Mul

/-! ## The unsigned division -/

/-- The divisor and the quotient bit, both shifted by `k`. -/
structure Scaled (d d' c : BitVec 32) (k : Nat) : Prop where
  divisor : d'.toNat = d.toNat * 2 ^ k
  bit : c.toNat = 2 ^ k

/-- The state of the subtracting loop: the quotient has no bit at `k` or below,
and what is left of `n` is less than twice the shifted divisor. -/
structure Dividing (n d q r d' c : BitVec 32) (k : Nat) : Prop extends Scaled d d' c k where
  left : r.toNat < 2 * d'.toNat
  clear : 2 ^ (k + 1) ∣ q.toNat
  sum : n.toNat = q.toNat * d.toNat + r.toNat

section Scale
variable {d d' c : BitVec 32} {k : Nat}

theorem Scaled.init (d : BitVec 32) : Scaled d d 1#32 0 := ⟨by simp, rfl⟩

theorem Scaled.divisor_pos (h : Scaled d d' c k) (hd : d ≠ 0#32) : 0 < d'.toNat := by
  have hpos : 0 < d.toNat := Nat.pos_of_ne_zero fun h0 => hd (BitVec.eq_of_toNat_eq h0)
  rw [h.divisor]
  exact Nat.mul_pos hpos (Nat.two_pow_pos k)

theorem Scaled.double (h : Scaled d d' c k) (hd : d ≠ 0#32) (hsmall : d'.toNat < 2 ^ 31) :
    Scaled d (d' <<< 1) (c <<< 1) (k + 1) := by
  have hpos : 0 < d.toNat := Nat.pos_of_ne_zero fun h0 => hd (BitVec.eq_of_toNat_eq h0)
  have hle : 2 ^ k ≤ d.toNat * 2 ^ k := Nat.le_mul_of_pos_left _ hpos
  have hpow : 2 ^ (k + 1) = 2 ^ k * 2 := Nat.pow_succ 2 k
  have hdiv := h.divisor
  have hbit := h.bit
  constructor
  · rw [shiftLeft_one, BitVec.toNat_add, hpow, ← Nat.mul_assoc, ← hdiv]
    omega
  · rw [shiftLeft_one, BitVec.toNat_add, hpow, ← hbit]
    omega

theorem Scaled.halve (h : Scaled d d' c (k + 1)) : Scaled d (d' >>> 1) (c >>> 1) k := by
  have hdiv := h.divisor
  have hbit := h.bit
  rw [Nat.pow_succ] at hdiv hbit
  constructor
  · rw [toNat_half, hdiv, ← Nat.mul_assoc, Nat.mul_div_cancel _ (by decide)]
  · rw [toNat_half, hbit, Nat.mul_div_cancel _ (by decide)]

end Scale

section Divide
variable {n d q r d' c : BitVec 32} {k : Nat}

theorem Dividing.init (hs : Scaled d d' c k) (hn : n.toNat < 2 * d'.toNat) :
    Dividing n d 0#32 n d' c k := ⟨hs, hn, by simp, by simp⟩

/-- The quotient takes its bit `k`. -/
theorem toNat_or_bit (hc : c.toNat = 2 ^ k) (hq : 2 ^ (k + 1) ∣ q.toNat) :
    (q ||| c).toNat = q.toNat + c.toNat := by
  obtain ⟨m, hm⟩ := hq
  rw [BitVec.toNat_or, hc, hm, Nat.two_pow_add_eq_or_of_lt]
  exact Nat.pow_lt_pow_right (by decide) (Nat.lt_succ_self k)

/-- What the subtraction leaves: the bit `k` is decided. -/
structure Decided (n d q r d' c : BitVec 32) (k : Nat) : Prop extends Scaled d d' c k where
  left : r.toNat < d'.toNat
  clear : 2 ^ k ∣ q.toNat
  sum : n.toNat = q.toNat * d.toNat + r.toNat

theorem Dividing.keep (h : Dividing n d q r d' c k) (hlt : r.toNat < d'.toNat) :
    Decided n d q r d' c k := by
  have hdvd : 2 ^ k ∣ q.toNat := Nat.dvd_trans (Nat.pow_dvd_pow 2 (Nat.le_succ k)) h.clear
  exact ⟨h.toScaled, hlt, hdvd, h.sum⟩

theorem Dividing.subtract (h : Dividing n d q r d' c k) (hge : d'.toNat ≤ r.toNat) :
    Decided n d (q ||| c) (r - d') d' c k := by
  have hsub : (r - d').toNat = r.toNat - d'.toNat := BitVec.toNat_sub_of_le hge
  have hor := toNat_or_bit h.bit h.clear
  have hleft := h.left
  refine ⟨h.toScaled, ?_, ?_, ?_⟩
  · rw [hsub]
    omega
  · have hdvd : 2 ^ k ∣ q.toNat := Nat.dvd_trans (Nat.pow_dvd_pow 2 (Nat.le_succ k)) h.clear
    rw [hor, h.bit]
    exact Nat.dvd_add hdvd (Nat.dvd_refl _)
  · have hsum := h.sum
    have hprod : c.toNat * d.toNat = d'.toNat := by
      rw [h.bit, h.divisor, Nat.mul_comm]
    rw [hor, hsub, Nat.add_mul, hprod]
    omega

theorem Decided.next (h : Decided n d q r d' c (k + 1)) :
    Dividing n d q r (d' >>> 1) (c >>> 1) k := by
  have hs := h.toScaled.halve
  refine ⟨hs, ?_, h.clear, h.sum⟩
  have hleft := h.left
  have hdiv := h.divisor
  rw [Nat.pow_succ, ← Nat.mul_assoc] at hdiv
  rw [hs.divisor]
  omega

theorem Decided.finish (h : Decided n d q r d' c 0) : q = n / d ∧ r = n % d := by
  have hleft := h.left
  rw [h.divisor, Nat.pow_zero, Nat.mul_one] at hleft
  have hsum := h.sum
  constructor
  · apply BitVec.eq_of_toNat_eq
    rw [BitVec.toNat_udiv, hsum, Nat.mul_comm, Nat.mul_add_div (by omega),
      Nat.div_eq_of_lt hleft, Nat.add_zero]
  · apply BitVec.eq_of_toNat_eq
    rw [BitVec.toNat_umod, hsum, Nat.mul_comm, Nat.mul_add_mod, Nat.mod_eq_of_lt hleft]

end Divide

section Unsigned
variable {base : BitVec 32} (hb : base.toNat % 4 = 0) (h : Hart) {x : Reg → BitVec 32}
  {n d : BitVec 32}

theorem toInt_nonpos {v : BitVec 32} (hv : 0 < v.toNat) : v.toInt ≤ 0 ↔ 2 ^ 31 ≤ v.toNat := by
  rw [BitVec.toInt_eq_toNat_cond]
  have := v.isLt
  split <;> omega

/-- `.L1`: the divisor is doubled until it reaches `n` or fills the word. -/
theorem scale_loop (hx : x 0#5 = 0#32) (hd : d ≠ 0#32) (v0 d' c : BitVec 32) {k : Nat}
    (hs : Scaled d d' c k) : ∃ e b j, Scaled d e b j ∧ n.toNat < 2 * e.toNat ∧
    (load div hb).Leads ((load div hb).inWindow h x 8 v0 n d' c)
      ((load div hb).inWindow h x 12 v0 n e b) := by
  induction hm : 2 ^ 32 - d'.toNat using Nat.strong_induction_on generalizing d' c k with
  | h m ih =>
    have hpos := hs.divisor_pos hd
    have hsign : d'.toInt ≤ (x 0#5).toInt ↔ 2 ^ 31 ≤ d'.toNat := by
      rw [hx]
      exact toInt_nonpos hpos
    by_cases hbig : 2 ^ 31 ≤ d'.toNat
    · refine ⟨d', c, k, hs, ?_, .taken (n := 12) rfl (by decide) ?_ .refl⟩
      · have := n.isLt
        omega
      · exact decide_eq_true (hsign.mpr hbig)
    · have hs' := hs.double hd (by omega)
      have hdouble : (d' <<< 1).toNat = 2 * d'.toNat := by
        rw [shiftLeft_one, BitVec.toNat_add]
        omega
      have hpass : (load div hb).Leads ((load div hb).inWindow h x 8 v0 n d' c)
          ((load div hb).inWindow h x 11 v0 n (d' <<< 1) (c <<< 1)) := by
        refine .fallThrough rfl (decide_eq_false fun hle => hbig (hsign.mp hle)) ?_
        refine .shiftImm rfl (by decide) rfl (Window.set_a2 ..) ?_
        refine .shiftImm rfl (by decide) rfl (Window.set_a3 ..) ?_
        exact .refl
      by_cases hgt : (d' <<< 1).toNat < n.toNat
      · obtain ⟨e, b, j, hj, hn, hrest⟩ := ih _ (by omega) (d' <<< 1) (c <<< 1) hs' rfl
        refine ⟨e, b, j, hj, hn, hpass.trans (.taken (n := 8) rfl (by decide) ?_ hrest)⟩
        exact decide_eq_true hgt
      · refine ⟨d' <<< 1, c <<< 1, k + 1, hs', by omega, hpass.trans (.fallThrough rfl ?_ .refl)⟩
        exact decide_eq_false hgt

/-- `.L3` up to the branch at its end: one bit of the quotient. -/
theorem divide_pass {q r d' c : BitVec 32} {k : Nat} (hs : Dividing n d q r d' c k) :
    ∃ q' r', Decided n d q' r' d' c k ∧
      (load div hb).Leads ((load div hb).inWindow h x 13 q r d' c)
        ((load div hb).inWindow h x 18 q' r' (d' >>> 1) (c >>> 1)) := by
  have hshifts : ∀ q' r', (load div hb).Leads ((load div hb).inWindow h x 16 q' r' d' c)
      ((load div hb).inWindow h x 18 q' r' (d' >>> 1) (c >>> 1)) := by
    intro q' r'
    refine .shiftImm rfl (by decide) rfl (Window.set_a3 ..) ?_
    refine .shiftImm rfl (by decide) rfl (Window.set_a2 ..) ?_
    exact .refl
  by_cases hlt : r.toNat < d'.toNat
  · refine ⟨q, r, hs.keep hlt, .taken (n := 16) rfl (by decide) ?_ (hshifts q r)⟩
    exact decide_eq_true hlt
  · refine ⟨q ||| c, r - d', hs.subtract (by omega), ?_⟩
    refine .fallThrough rfl (decide_eq_false hlt) ?_
    refine .op rfl (by decide) rfl (Window.set_a1 ..) ?_
    refine .op rfl (by decide) rfl (Window.set_a0 ..) ?_
    exact hshifts _ _

theorem divide_loop (hx : x 0#5 = 0#32) {k : Nat} (q r d' c : BitVec 32)
    (hs : Dividing n d q r d' c k) : ∃ u2 u3,
    (load div hb).Leads ((load div hb).inWindow h x 13 q r d' c)
      ((load div hb).inWindow h x 19 (n / d) (n % d) u2 u3) := by
  induction k generalizing q r d' c with
  | zero =>
    obtain ⟨q', r', hdec, hpass⟩ := divide_pass hb h (x := x) hs
    have hzero : c >>> 1 = x 0#5 := by
      rw [hx]
      apply BitVec.eq_of_toNat_eq
      rw [toNat_half, hs.bit]
      rfl
    obtain ⟨rfl, rfl⟩ := hdec.finish
    refine ⟨d' >>> 1, c >>> 1, hpass.trans (.fallThrough rfl (decide_eq_false ?_) .refl)⟩
    exact not_not_intro hzero
  | succ k ih =>
    obtain ⟨q', r', hdec, hpass⟩ := divide_pass hb h (x := x) hs
    obtain ⟨u2, u3, hrest⟩ := ih q' r' (d' >>> 1) (c >>> 1) hdec.next
    refine ⟨u2, u3, hpass.trans (.taken (n := 13) rfl (by decide) (decide_eq_true ?_) hrest)⟩
    intro hzero
    have hbit := hs.toScaled.halve.bit
    have hpow := Nat.two_pow_pos k
    rw [show c >>> 1 = 0#32 from hzero.trans hx, BitVec.toNat_ofNat] at hbit
    omega

/-- `__udivsi3` up to its `ret`: the quotient in `a0`, the remainder in `a1`. -/
theorem udivsi3_body (hx : x 0#5 = 0#32) (n d u2 u3 : BitVec 32) : ∃ v2 v3,
    (load div hb).Leads ((load div hb).inWindow h x 2 n d u2 u3)
      ((load div hb).inWindow h x 19 (MulDiv.value .divu n d) (MulDiv.value .remu n d) v2 v3) := by
  have hmoves : (load div hb).Leads ((load div hb).inWindow h x 2 n d u2 u3)
      ((load div hb).inWindow h x 5 (-1#32) n d u3) := by
    refine .mv rfl (by decide) (Window.set_a2 ..) ?_
    refine .mv rfl (by decide) (Window.set_a1 ..) ?_
    refine .li rfl (by decide) hx (Window.set_a0 ..) ?_
    exact .refl
  by_cases hd : d = 0#32
  · have hdiv : MulDiv.value .divu n d = -1#32 := if_pos hd
    have hrem : MulDiv.value .remu n d = n := if_pos hd
    rw [hdiv, hrem]
    refine ⟨d, u3, hmoves.trans (.taken (n := 19) rfl (by decide) ?_ .refl)⟩
    exact decide_eq_true (hd.trans hx.symm)
  have hdiv : MulDiv.value .divu n d = n / d := if_neg hd
  have hrem : MulDiv.value .remu n d = n % d := if_neg hd
  rw [hdiv, hrem]
  have hone : (load div hb).Leads ((load div hb).inWindow h x 2 n d u2 u3)
      ((load div hb).inWindow h x 7 (-1#32) n d 1#32) := by
    refine hmoves.trans (.fallThrough rfl (decide_eq_false ?_) ?_)
    · exact fun he => hd (he.trans hx)
    refine .li rfl (by decide) hx (Window.set_a3 ..) ?_
    exact .refl
  -- `.L2` is reached at once when the divisor is at least `n`, else through `.L1`.
  obtain ⟨e, b, j, hs, hn, hscale⟩ : ∃ e b j, Scaled d e b j ∧ n.toNat < 2 * e.toNat ∧
      (load div hb).Leads ((load div hb).inWindow h x 7 (-1#32) n d 1#32)
        ((load div hb).inWindow h x 12 (-1#32) n e b) := by
    have hpos := (Scaled.init d).divisor_pos hd
    by_cases hge : n.toNat ≤ d.toNat
    · refine ⟨d, 1#32, 0, .init d, by omega, .taken (n := 12) rfl (by decide) ?_ .refl⟩
      exact decide_eq_true hge
    · obtain ⟨e, b, j, hs, hn, hloop⟩ := scale_loop hb h (n := n) hx hd (-1#32) d 1#32 (.init d)
      exact ⟨e, b, j, hs, hn, .fallThrough rfl (decide_eq_false hge) hloop⟩
  obtain ⟨v2, v3, hdivide⟩ := divide_loop hb h hx 0#32 n e b (.init hs hn)
  refine ⟨v2, v3, hone.trans (hscale.trans (.li rfl (by decide) hx (Window.set_a0 ..) ?_))⟩
  exact hdivide

end Unsigned

/-! ## Calls and returns -/

/-- The call made at `h` has returned `v`; only some registers have changed. -/
structure Returned (changed : List Reg) (h h' : Hart) (v : BitVec 32) : Prop where
  pc : h'.pc = h.x ra
  value : h'.x a0 = v
  kept : ∀ r, r ∉ changed → h'.x r = h.x r
  csrs : h'.csrs = h.csrs
  mem : h'.mem = h.mem

section Calls
variable {base : BitVec 32} (hb : base.toNat % 4 = 0) (h : Hart) {x : Reg → BitVec 32}
  (n d u2 u3 : BitVec 32)

/-- A call of `__udivsi3` from inside the file. -/
theorem call_udivsi3 {k : Nat}
    (hk : (load div hb).code[k]? = some (.jal ra (.ofInt 21 (distance k 2))))
    (hreach : -2 ^ 20 ≤ distance k 2 ∧ distance k 2 < 2 ^ 20) (hx : x 0#5 = 0#32) : ∃ v2 v3,
    (load div hb).Leads ((load div hb).inWindow h x k n d u2 u3)
      ((load div hb).inWindow h (Function.update x ra ((load div hb).address (k + 1))) (k + 1)
        (MulDiv.value .divu n d) (MulDiv.value .remu n d) v2 v3) := by
  have hx' : Function.update x ra ((load div hb).address (k + 1)) 0#5 = 0#32 := hx
  obtain ⟨v2, v3, hbody⟩ := udivsi3_body hb h hx' n d u2 u3
  refine ⟨v2, v3, .call hk hreach (by decide) (Window.set_outside _ _ _ (by decide)) ?_⟩
  refine hbody.trans (.jr rfl ?_ ?_)
  · exact (load div hb).address_aligned (k + 1)
  · exact .refl

/-- The hart after the return. -/
theorem returned_fill {changed : List Reg} {w : Window} (hx : ∀ r, r ∉ changed → x r = h.x r)
    (hc : ∀ r ∈ [a0, a1, a2, a3], r ∈ changed) :
    Returned changed h { h with x := w.fill x, pc := h.x ra } w.a0 := by
  refine ⟨rfl, rfl, ?_, rfl, rfl⟩
  intro r hr
  rw [← hx r hr]
  apply Window.fill_outside
  refine ⟨?_, ?_, ?_, ?_⟩ <;>
    · rintro rfl
      exact hr (hc _ (by decide))

end Calls

/-- The registers the routines of `div.S` change. -/
def divChanged : List Reg := [ra, t0, a0, a1, a2, a3]

section Tails
variable {base : BitVec 32} (hb : base.toNat % 4 = 0) (h : Hart) (n d u2 u3 : BitVec 32)

/-- The registers after `move t0, ra`. -/
def saved : Reg → BitVec 32 := Function.update h.x t0 (h.x ra)

theorem saved_kept (a : BitVec 32) {r : Reg} (hr : r ∉ divChanged) :
    Function.update (saved h) ra a r = h.x r := by
  have hra : r ≠ ra := fun he => hr (he ▸ by decide)
  have ht0 : r ≠ t0 := fun he => hr (he ▸ by decide)
  rw [Function.update_of_ne hra, saved, Function.update_of_ne ht0]

variable (hx : h.x 0#5 = 0#32) (hra : (h.x ra).toNat % 4 = 0)
include hx hra

/-- A call of `__udivsi3`, then one line that leaves `v` in `a0`, then the return
through `t0`. -/
theorem call_then {k : Nat} {v : BitVec 32}
    (hk : (load div hb).code[k]? = some (.jal ra (.ofInt 21 (distance k 2))))
    (hreach : -2 ^ 20 ≤ distance k 2 ∧ distance k 2 < 2 ^ 20)
    (hk2 : (load div hb).code[k + 2]? = some (jr t0))
    (hline : ∀ x v2 v3, x 0#5 = 0#32 → (load div hb).Leads
      ((load div hb).inWindow h x (k + 1) (MulDiv.value .divu n d) (MulDiv.value .remu n d) v2 v3)
      ((load div hb).inWindow h x (k + 2) v (MulDiv.value .remu n d) v2 v3)) :
    ∃ h', (load div hb).Leads ((load div hb).inWindow h (saved h) k n d u2 u3) h' ∧
      Returned divChanged h h' v := by
  have hs : saved h 0#5 = 0#32 := hx
  obtain ⟨v2, v3, hcall⟩ := call_udivsi3 hb h n d u2 u3 hk hreach hs
  have hs' : Function.update (saved h) ra ((load div hb).address (k + 1)) 0#5 = 0#32 := hs
  refine ⟨_, hcall.trans ((hline _ v2 v3 hs').trans (.jr hk2 hra .refl)), ?_⟩
  exact returned_fill h (fun r => saved_kept h _) (by decide)

/-- The return of `__udivsi3` itself. -/
theorem udivsi3_returns : ∃ h', (load div hb).Leads ((load div hb).inWindow h h.x 2 n d u2 u3) h' ∧
    Returned divChanged h h' (MulDiv.value .divu n d) := by
  obtain ⟨v2, v3, hbody⟩ := udivsi3_body hb h hx n d u2 u3
  refine ⟨_, hbody.trans (.jr rfl hra .refl), ?_⟩
  exact returned_fill h (fun _ _ => rfl) (by decide)

theorem umodsi3_returns : ∃ h', (load div hb).Leads ((load div hb).inWindow h h.x 20 n d u2 u3) h' ∧
    Returned divChanged h h' (MulDiv.value .remu n d) := by
  obtain ⟨h', hcall, hret⟩ := call_then hb h n d u2 u3 hx hra (k := 21) rfl (by decide) rfl
    fun x v2 v3 _ => .mv rfl (by decide) (Window.set_a0 ..) .refl
  exact ⟨h', .mv rfl (by decide) (Window.set_outside _ _ _ (by decide)) hcall, hret⟩

/-- `.L12`: the quotient is negated. -/
theorem negated_quotient :
    ∃ h', (load div hb).Leads ((load div hb).inWindow h h.x 29 n d u2 u3) h' ∧
      Returned divChanged h h' (-MulDiv.value .divu n d) := by
  obtain ⟨h', hcall, hret⟩ := call_then hb h n d u2 u3 hx hra (k := 30)
    (v := -MulDiv.value .divu n d) rfl (by decide) rfl
    fun x v2 v3 hx => .neg rfl (by decide) hx (Window.set_a0 ..) .refl
  exact ⟨h', .mv rfl (by decide) (Window.set_outside _ _ _ (by decide)) hcall, hret⟩

/-- `.L30`: the remainder of a dividend that is not negative. -/
theorem plain_remainder :
    ∃ h', (load div hb).Leads ((load div hb).inWindow h (saved h) 36 n d u2 u3) h' ∧
      Returned divChanged h h' (MulDiv.value .remu n d) :=
  call_then hb h n d u2 u3 hx hra (k := 36) rfl (by decide) rfl
    fun x v2 v3 _ => .mv rfl (by decide) (Window.set_a0 ..) .refl

/-- `.L32`: the remainder of a negative dividend. -/
theorem negated_remainder :
    ∃ h', (load div hb).Leads ((load div hb).inWindow h (saved h) 41 n d u2 u3) h' ∧
      Returned divChanged h h' (-MulDiv.value .remu (-n) d) := by
  obtain ⟨h', hcall, hret⟩ := call_then hb h (-n) d u2 u3 hx hra (k := 42)
    (v := -MulDiv.value .remu (-n) d) rfl (by decide) rfl
    fun x v2 v3 hx => .neg rfl (by decide) hx (Window.set_a0 ..) .refl
  exact ⟨h', .neg rfl (by decide) hx (Window.set_a0 ..) hcall, hret⟩

end Tails

/-! ## The signed routines -/

section Signed
variable (n d : BitVec 32)

theorem value_div : MulDiv.value .div n d = if d = 0#32 then -1#32 else n.sdiv d := by
  simp only [MulDiv.value]
  split
  · rfl
  · split
    · rename_i hmin
      rw [hmin.1, hmin.2]
      decide
    · rfl

theorem value_rem : MulDiv.value .rem n d = if d = 0#32 then n else n.srem d := by
  simp only [MulDiv.value]
  split
  · rfl
  · split
    · rename_i hmin
      rw [hmin.1, hmin.2]
      decide
    · rfl

theorem value_divu (hd : d ≠ 0#32) : MulDiv.value .divu n d = n / d := if_neg hd

theorem value_remu (hd : d ≠ 0#32) : MulDiv.value .remu n d = n % d := if_neg hd

end Signed

section Signs
variable {n d : BitVec 32}

theorem ne_zero_of_msb (hd : d.msb = true) : d ≠ 0#32 := by
  rintro rfl
  exact absurd hd (by decide)

theorem div_nonneg (hn : n.msb = false) (hd : d.msb = false) :
    MulDiv.value .div n d = MulDiv.value .divu n d := by
  rw [value_div]
  by_cases hz : d = 0#32
  · exact (if_pos hz).trans (if_pos hz).symm
  · rw [if_neg hz, value_divu n d hz, BitVec.sdiv_eq, hn, hd]
    rfl

theorem div_neg_right (hn : n.msb = false) (hd : d.msb = true) :
    MulDiv.value .div n d = -MulDiv.value .divu n (-d) := by
  have hz := ne_zero_of_msb hd
  have hz' : -d ≠ 0#32 := fun h0 => hz (BitVec.neg_eq_zero_iff.mp h0)
  rw [value_div, if_neg hz, value_divu n (-d) hz', BitVec.sdiv_eq, hn, hd]
  rfl

theorem div_neg_left (hn : n.msb = true) (hd : d.msb = false) (hz : d ≠ 0#32) :
    MulDiv.value .div n d = -MulDiv.value .divu (-n) d := by
  rw [value_div, if_neg hz, value_divu (-n) d hz, BitVec.sdiv_eq, hn, hd]
  rfl

/-- Zero is handled as a negative divisor. -/
theorem div_neg_neg (hn : n.msb = true) (hd : d.msb = true ∨ d = 0#32) :
    MulDiv.value .div n d = MulDiv.value .divu (-n) (-d) := by
  rcases hd with hd | rfl
  · have hz := ne_zero_of_msb hd
    have hz' : -d ≠ 0#32 := fun h0 => hz (BitVec.neg_eq_zero_iff.mp h0)
    rw [value_div, if_neg hz, value_divu (-n) (-d) hz', BitVec.sdiv_eq, hn, hd]
    rfl
  · rfl

/-- The remainder takes the sign of the dividend. -/
theorem rem_nonneg (hn : n.msb = false) :
    MulDiv.value .rem n d = MulDiv.value .remu n (if d.msb then -d else d) := by
  rw [value_rem]
  by_cases hz : d = 0#32
  · subst hz
    rfl
  · have hz' : -d ≠ 0#32 := fun h0 => hz (BitVec.neg_eq_zero_iff.mp h0)
    rw [if_neg hz, BitVec.srem_eq, hn]
    cases hd : d.msb with
    | false => exact (value_remu n d hz).symm
    | true => exact (value_remu n (-d) hz').symm

theorem rem_neg (hn : n.msb = true) :
    MulDiv.value .rem n d = -MulDiv.value .remu (-n) (if d.msb then -d else d) := by
  rw [value_rem]
  by_cases hz : d = 0#32
  · subst hz
    exact (BitVec.neg_neg).symm
  · have hz' : -d ≠ 0#32 := fun h0 => hz (BitVec.neg_eq_zero_iff.mp h0)
    rw [if_neg hz, BitVec.srem_eq, hn]
    cases hd : d.msb with
    | false => exact (congrArg (- ·) (value_remu (-n) d hz)).symm
    | true => exact (congrArg (- ·) (value_remu (-n) (-d) hz')).symm

/-! The branches on a sign. -/

variable {x : Reg → BitVec 32} (hx : x 0#5 = 0#32) (v : BitVec 32)
include hx

theorem bltz_holds : Cond.lt.holds v (x 0#5) = v.msb := by
  rw [hx, BitVec.msb_eq_toInt]
  rfl

theorem bgez_holds : Cond.ge.holds v (x 0#5) = !v.msb := by
  rw [hx, BitVec.msb_eq_toInt, ← decide_not]
  exact decide_eq_decide.mpr Int.not_lt.symm

theorem bgtz_holds : Cond.lt.holds (x 0#5) v = true ↔ v.msb = false ∧ v ≠ 0#32 := by
  have hz : v = 0#32 ↔ v.toInt = 0 := BitVec.toInt_inj.symm
  rw [hx, BitVec.msb_eq_toInt, ne_eq, hz]
  simp only [Cond.holds, BitVec.toInt_zero, decide_eq_true_eq, decide_eq_false_iff_not]
  omega

end Signs

section Entries
variable {base : BitVec 32} (hb : base.toNat % 4 = 0) (h : Hart) (n d u2 u3 : BitVec 32)
  (hx : h.x 0#5 = 0#32) (hra : (h.x ra).toNat % 4 = 0)
include hx hra

theorem divsi3_returns : ∃ h', (load div hb).Leads ((load div hb).inWindow h h.x 0 n d u2 u3) h' ∧
    Returned divChanged h h' (MulDiv.value .div n d) := by
  cases hn : n.msb with
  | false =>
    cases hd : d.msb with
    | false =>
      obtain ⟨h', hrun, hret⟩ := udivsi3_returns hb h n d u2 u3 hx hra
      rw [div_nonneg hn hd]
      refine ⟨h', .fallThrough rfl ((bltz_holds hx n).trans hn) ?_, hret⟩
      exact .fallThrough rfl ((bltz_holds hx d).trans hd) hrun
    | true =>
      obtain ⟨h', hrun, hret⟩ := negated_quotient hb h n (-d) u2 u3 hx hra
      rw [div_neg_right hn hd]
      refine ⟨h', .fallThrough rfl ((bltz_holds hx n).trans hn) ?_, hret⟩
      refine .taken (n := 28) rfl (by decide) ((bltz_holds hx d).trans hd) ?_
      exact .neg rfl (by decide) hx (Window.set_a1 ..) hrun
  | true =>
    have hL10 : ∀ g, (load div hb).Leads ((load div hb).inWindow h h.x 25 (-n) d u2 u3) g →
        (load div hb).Leads ((load div hb).inWindow h h.x 0 n d u2 u3) g := by
      intro g hrun
      refine .taken (n := 24) rfl (by decide) ((bltz_holds hx n).trans hn) ?_
      exact .neg rfl (by decide) hx (Window.set_a0 ..) hrun
    by_cases hd : d.msb = false ∧ d ≠ 0#32
    · obtain ⟨h', hrun, hret⟩ := negated_quotient hb h (-n) d u2 u3 hx hra
      rw [div_neg_left hn hd.1 hd.2]
      refine ⟨h', hL10 h' ?_, hret⟩
      exact .taken (n := 29) rfl (by decide) ((bgtz_holds hx d).mpr hd) hrun
    · obtain ⟨h', hrun, hret⟩ := udivsi3_returns hb h (-n) (-d) u2 u3 hx hra
      have hd' : d.msb = true ∨ d = 0#32 := by
        cases hm : d.msb with
        | true => exact .inl rfl
        | false => exact .inr (not_not.mp fun hz => hd ⟨hm, hz⟩)
      rw [div_neg_neg hn hd']
      refine ⟨h', hL10 h' ?_, hret⟩
      refine .fallThrough rfl (Bool.eq_false_iff.mpr fun hc => hd ((bgtz_holds hx d).mp hc)) ?_
      refine .neg rfl (by decide) hx (Window.set_a1 ..) ?_
      exact .jump (n := 2) rfl (by decide) hrun

theorem modsi3_returns : ∃ h', (load div hb).Leads ((load div hb).inWindow h h.x 33 n d u2 u3) h' ∧
    Returned divChanged h h' (MulDiv.value .rem n d) := by
  have hs : saved h 0#5 = 0#32 := hx
  have hsave : ∀ g, (load div hb).Leads ((load div hb).inWindow h (saved h) 34 n d u2 u3) g →
      (load div hb).Leads ((load div hb).inWindow h h.x 33 n d u2 u3) g :=
    fun g hrun => .mv rfl (by decide) (Window.set_outside _ _ _ (by decide)) hrun
  cases hd : d.msb with
  | false =>
    have hL : ∀ g, (load div hb).Leads ((load div hb).inWindow h (saved h) 35 n d u2 u3) g →
        (load div hb).Leads ((load div hb).inWindow h h.x 33 n d u2 u3) g :=
      fun g hrun => hsave g (.fallThrough rfl ((bltz_holds hs d).trans hd) hrun)
    cases hn : n.msb with
    | false =>
      obtain ⟨h', hrun, hret⟩ := plain_remainder hb h n d u2 u3 hx hra
      rw [rem_nonneg hn, hd]
      exact ⟨h', hL h' (.fallThrough rfl ((bltz_holds hs n).trans hn) hrun), hret⟩
    | true =>
      obtain ⟨h', hrun, hret⟩ := negated_remainder hb h n d u2 u3 hx hra
      rw [rem_neg hn, hd]
      exact ⟨h', hL h' (.taken (n := 41) rfl (by decide) ((bltz_holds hs n).trans hn) hrun), hret⟩
  | true =>
    have hL31 : ∀ g, (load div hb).Leads ((load div hb).inWindow h (saved h) 40 n (-d) u2 u3) g →
        (load div hb).Leads ((load div hb).inWindow h h.x 33 n d u2 u3) g := by
      intro g hrun
      refine hsave g (.taken (n := 39) rfl (by decide) ((bltz_holds hs d).trans hd) ?_)
      exact .neg rfl (by decide) hs (Window.set_a1 ..) hrun
    cases hn : n.msb with
    | false =>
      obtain ⟨h', hrun, hret⟩ := plain_remainder hb h n (-d) u2 u3 hx hra
      have hge : Cond.ge.holds n (saved h 0#5) = true := by rw [bgez_holds hs, hn]; rfl
      rw [rem_nonneg hn, hd]
      exact ⟨h', hL31 h' (.taken (n := 36) rfl (by decide) hge hrun), hret⟩
    | true =>
      obtain ⟨h', hrun, hret⟩ := negated_remainder hb h n (-d) u2 u3 hx hra
      have hlt : Cond.ge.holds n (saved h 0#5) = false := by rw [bgez_holds hs, hn]; rfl
      rw [rem_neg hn, hd]
      exact ⟨h', hL31 h' (.fallThrough rfl hlt hrun), hret⟩

end Entries

theorem mulsi3_returns {base : BitVec 32} (hb : base.toNat % 4 = 0) (h : Hart)
    (n d u2 u3 : BitVec 32) (hx : h.x 0#5 = 0#32) (hra : (h.x ra).toNat % 4 = 0) :
    ∃ h', (load muldi3 hb).Leads ((load muldi3 hb).inWindow h h.x 0 n d u2 u3) h' ∧
      Returned [a0, a1, a2, a3] h h' (MulDiv.value .mul n d) := by
  obtain ⟨v2, v3, hloop⟩ := mul_loop hb h hx 0#32 d n u3
  have hmul : 0#32 + d * n = MulDiv.value .mul n d := by
    rw [BitVec.zero_add, BitVec.mul_comm, MulDiv.value, ← Int.natCast_mul, BitVec.ofInt_natCast,
      BitVec.ofNat_mul, BitVec.ofNat_toNat, BitVec.ofNat_toNat, BitVec.setWidth_eq,
      BitVec.setWidth_eq]
  rw [hmul] at hloop
  have hstart : (load muldi3 hb).Leads ((load muldi3 hb).inWindow h h.x 0 n d u2 u3)
      ((load muldi3 hb).inWindow h h.x 2 0#32 d n u3) := by
    refine .mv rfl (by decide) (Window.set_a2 ..) ?_
    refine .li rfl (by decide) hx (Window.set_a0 ..) ?_
    exact .refl
  refine ⟨_, hstart.trans (hloop.trans (.jr rfl hra .refl)), ?_⟩
  exact returned_fill h (fun _ _ => rfl) (by decide)

/-! ## The routines -/

inductive Routine where
  | __mulsi3 | __divsi3 | __udivsi3 | __umodsi3 | __modsi3
  deriving Repr, DecidableEq

namespace Routine

/-- The instruction of the M extension that a routine stands for. -/
def op : Routine → MulDiv
  | __mulsi3 => .mul
  | __divsi3 => .div
  | __udivsi3 => .divu
  | __umodsi3 => .remu
  | __modsi3 => .rem

/-- The file a routine is in, loaded at an aligned address. -/
def image (f : Routine) {base : BitVec 32} (hb : base.toNat % 4 = 0) : Image :=
  match f with
  | __mulsi3 => load muldi3 hb
  | _ => load div hb

/-- The line of the routine's symbol. -/
def entry : Routine → Nat
  | __mulsi3 => position .__mulsi3 muldi3
  | __divsi3 => position .__divsi3 div
  | __udivsi3 => position .__udivsi3 div
  | __umodsi3 => position .__umodsi3 div
  | __modsi3 => position .__modsi3 div

def changed : Routine → List Reg
  | __mulsi3 => [a0, a1, a2, a3]
  | _ => divChanged

end Routine

/-- The routines work on registers only. -/
theorem image_plain (f : Routine) {base : BitVec 32} (hb : base.toNat % 4 = 0) :
    ∀ i ∈ (f.image hb).code, plain i = true := by
  have hmul : ∀ i ∈ assemble muldi3, plain i = true := by decide
  have hdiv : ∀ i ∈ assemble div, plain i = true := by decide
  cases f with
  | __mulsi3 => exact hmul
  | __divsi3 | __udivsi3 | __umodsi3 | __modsi3 => exact hdiv

/-- The hart at the first line of a routine, with its arguments in the window. -/
theorem at_entry {im : Image} {h : Hart} {k : Nat} (hpc : h.pc = im.address k) :
    h = im.inWindow h h.x k (h.x a0) (h.x a1) (h.x a2) (h.x a3) := by
  rw [Image.inWindow, Window.fill_self, Image.point, ← hpc]

theorem routine_returns {base : BitVec 32} (hb : base.toNat % 4 = 0) (f : Routine) (h : Hart)
    (hpc : h.pc = (f.image hb).address f.entry) (hx : h.x 0#5 = 0#32)
    (hra : (h.x ra).toNat % 4 = 0) :
    ∃ h', (f.image hb).Leads h h' ∧
      Returned f.changed h h' (f.op.value (h.x a0) (h.x a1)) := by
  have hentry := at_entry hpc
  cases f with
  | __mulsi3 =>
    obtain ⟨h', hrun, hret⟩ := mulsi3_returns hb h (h.x a0) (h.x a1) (h.x a2) (h.x a3) hx hra
    exact ⟨h', hentry ▸ hrun, hret⟩
  | __divsi3 =>
    obtain ⟨h', hrun, hret⟩ := divsi3_returns hb h (h.x a0) (h.x a1) (h.x a2) (h.x a3) hx hra
    exact ⟨h', hentry ▸ hrun, hret⟩
  | __udivsi3 =>
    obtain ⟨h', hrun, hret⟩ := udivsi3_returns hb h (h.x a0) (h.x a1) (h.x a2) (h.x a3) hx hra
    exact ⟨h', hentry ▸ hrun, hret⟩
  | __umodsi3 =>
    obtain ⟨h', hrun, hret⟩ := umodsi3_returns hb h (h.x a0) (h.x a1) (h.x a2) (h.x a3) hx hra
    exact ⟨h', hentry ▸ hrun, hret⟩
  | __modsi3 =>
    obtain ⟨h', hrun, hret⟩ := modsi3_returns hb h (h.x a0) (h.x a1) (h.x a2) (h.x a3) hx hra
    exact ⟨h', hentry ▸ hrun, hret⟩

/-- Software and hardware agree. Called with any arguments from anywhere, a
routine comes back to its caller, without an exception and without touching the
memory, the CSRs or a register that the caller keeps, and returns what the
reference emulator computes for the instruction of the M extension. -/
theorem libgcc_agrees {base : BitVec 32} (hb : base.toNat % 4 = 0) (f : Routine) (h : Hart)
    (hpc : h.pc = (f.image hb).address f.entry) (hx : h.x 0#5 = 0#32)
    (hra : (h.x ra).toNat % 4 = 0) :
    ∃ h' v, (f.image hb).Leads h h' ∧ f.op.body (h.x a0) (h.x a1) = some v ∧
      Returned f.changed h h' v := by
  obtain ⟨h', hrun, hret⟩ := routine_returns hb f h hpc hx hra
  exact ⟨h', _, hrun, MulDiv.body_eq f.op _ _, hret⟩

/-- `-7 / 2`, called with the return address 0x80000100. -/
def sampleCall : Hart where
  x := fun r => if r = a0 then -7#32 else if r = a1 then 2#32
    else if r = ra then 0x80000100#32 else 0#32
  pc := 0x80000000#32
  csrs := ⟨0#32, 0#32, 0#32⟩
  mem := fun _ => 0#8

theorem libgcc_agrees_sample : ∃ h', Returned divChanged sampleCall h' (-3#32) := by
  have hb : (0x80000000#32).toNat % 4 = 0 := by decide
  obtain ⟨h', v, -, hv, hret⟩ := libgcc_agrees hb .__divsi3 sampleCall rfl (by decide)
    (by decide)
  have hv3 : v = -3#32 := Option.some_inj.mp (hv.symm.trans (by decide))
  exact ⟨h', hv3 ▸ hret⟩

end Libgcc
