import Mathlib.Data.Nat.Digits.Lemmas

/-!
# Numerals

The digits of a number in a base, as they are written: the most significant
digit first, no leading zero, and one digit for zero.
-/

namespace Numeral

set_option autoImplicit false

def digits (b n : Nat) : List Nat := if n = 0 then [0] else (Nat.digits b n).reverse

/-- What a reader that multiplies and adds has after the digits. -/
def read (b acc : Nat) (ds : List Nat) : Nat := ds.foldl (fun a d => a * b + d) acc

def value (b : Nat) (ds : List Nat) : Nat := read b 0 ds

@[simp] theorem read_nil (b acc : Nat) : read b acc [] = acc := rfl

@[simp] theorem read_cons (b acc d : Nat) (ds : List Nat) :
    read b acc (d :: ds) = read b (acc * b + d) ds := rfl

theorem read_eq_ofDigits (b acc : Nat) (ds : List Nat) :
    read b acc ds = acc * b ^ ds.length + Nat.ofDigits b ds.reverse := by
  induction ds generalizing acc with
  | nil => simp
  | cons d ds ih =>
    rw [read_cons, ih, List.reverse_cons, Nat.ofDigits_append, Nat.ofDigits_singleton,
      List.length_cons, List.length_reverse, Nat.pow_succ]
    ring

section Base
variable {b n : Nat}

theorem digits_of_lt (h : n < b) : digits b n = [n] := by
  unfold digits
  split
  · rename_i hz
    rw [hz]
  · rename_i hz
    rw [Nat.digits_of_lt b n hz h]
    rfl

/-- The last digit is the remainder. -/
theorem digits_div (hb : 1 < b) (h : b ≤ n) : digits b n = digits b (n / b) ++ [n % b] := by
  have hn : n ≠ 0 := by omega
  have hq : n / b ≠ 0 := Nat.ne_of_gt (Nat.div_pos h (by omega))
  rw [digits, if_neg hn, digits, if_neg hq, Nat.digits_eq_cons_digits_div hb hn,
    List.reverse_cons]

theorem digits_lt (hb : 1 < b) : ∀ d ∈ digits b n, d < b := by
  intro d hd
  unfold digits at hd
  split at hd
  · rw [List.mem_singleton.mp hd]
    omega
  · exact Nat.digits_lt_base hb (List.mem_reverse.mp hd)

theorem digits_ne_nil : digits b n ≠ [] := by
  unfold digits
  split
  · exact List.cons_ne_nil 0 []
  · rename_i hn
    exact fun h => hn (Nat.digits_eq_nil_iff_eq_zero.mp (List.reverse_eq_nil_iff.mp h))

/-- A number written with more than one digit does not begin with zero. -/
theorem digits_head {ds : List Nat} (h : digits b n = 0 :: ds) : n = 0 := by
  by_contra hn
  rw [digits, if_neg hn] at h
  have hne : Nat.digits b n ≠ [] := Nat.digits_ne_nil_iff_ne_zero.mpr hn
  have hlast : (Nat.digits b n).getLast hne = 0 := by
    have hr : Nat.digits b n = (0 :: ds).reverse := by rw [← h, List.reverse_reverse]
    simp [hr]
  exact Nat.getLast_digit_ne_zero b hn hlast

theorem digits_length_pos : 0 < (digits b n).length := List.length_pos_iff.mpr digits_ne_nil

/-- Reading undoes writing. -/
theorem value_digits : value b (digits b n) = n := by
  unfold digits
  split
  · rename_i hn
    simp [value, hn]
  · rw [value, read_eq_ofDigits, List.reverse_reverse, Nat.ofDigits_digits]
    simp

theorem digits_length_le (hb : 1 < b) {k : Nat} (h : n < b ^ (k + 1)) :
    (digits b n).length ≤ k + 1 := by
  unfold digits
  split
  · exact Nat.succ_le_succ (Nat.zero_le k)
  · rw [List.length_reverse]
    exact (Nat.digits_length_le_iff hb n).mpr h

end Base

end Numeral
