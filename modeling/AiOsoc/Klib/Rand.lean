import AiOsoc.Klib.Stdlib
import Mathlib.Data.Nat.Log
import Mathlib.Algebra.Group.Nat.Defs
import Mathlib.Data.Bool.Basic

/-!
# The random generator

`rand` collects its feedback with `|` where a tap would be selected with `&`: the
low bit of each term is one, four of them cancel, and the register only shifts.
-/

namespace Klib

set_option autoImplicit false

/-- The seed after `n` calls of `rand`. -/
def seedAfter (seed : BitVec 32) : Nat → BitVec 32
  | 0 => seed
  | n + 1 => (rand (seedAfter seed n)).2

/-- The bit fed back is always zero. -/
theorem rand_shifts {seed : BitVec 32} (h : seed ≠ 0#32) : (rand seed).2 = seed >>> 1 := by
  have hone : (1#32).getLsbD 0 = true := rfl
  simp only [rand, if_neg h]
  apply BitVec.eq_of_getLsbD_eq
  intro i hi
  by_cases htop : i = 31
  · subst htop
    simp only [BitVec.getLsbD_or, BitVec.getLsbD_shiftLeft, BitVec.getLsbD_xor, hone, Nat.sub_self]
    simp
  · have hlow : i < 31 := by omega
    simp only [BitVec.getLsbD_or, BitVec.getLsbD_shiftLeft, hlow]
    simp

theorem seedAfter_eq (seed : BitVec 32) (n : Nat) (h : 2 ^ n ≤ 2 * seed.toNat) :
    (seedAfter seed n).toNat = seed.toNat / 2 ^ n := by
  induction n with
  | zero => simp [seedAfter]
  | succ n ih =>
    have hpow : 2 ^ n ≤ seed.toNat := by
      rw [Nat.pow_succ] at h
      omega
    have hn := ih (by omega)
    have hne : seedAfter seed n ≠ 0#32 := by
      intro hz
      rw [hz] at hn
      have := Nat.div_pos hpow (Nat.two_pow_pos n)
      simp only [BitVec.toNat_ofNat, Nat.zero_mod] at hn
      omega
    rw [seedAfter, rand_shifts hne, BitVec.toNat_ushiftRight, hn, Nat.shiftRight_eq_div_pow,
      Nat.div_div_eq_div_mul, ← Nat.pow_add]

theorem seedAfter_ne_zero {seed : BitVec 32} {n : Nat} (h : 2 ^ n ≤ seed.toNat) :
    seedAfter seed n ≠ 0#32 := by
  intro hz
  have hn := seedAfter_eq seed n (by omega)
  have := Nat.div_pos h (Nat.two_pow_pos n)
  rw [hz] at hn
  simp only [BitVec.toNat_ofNat, Nat.zero_mod] at hn
  omega

/-- The register is empty once all its bits are shifted out. -/
theorem seedAfter_reaches_zero {seed : BitVec 32} (h : seed ≠ 0#32) :
    seedAfter seed (Nat.log 2 seed.toNat + 1) = 0#32 := by
  have hne : seed.toNat ≠ 0 := fun hz => h (BitVec.eq_of_toNat_eq hz)
  have hlo := Nat.pow_log_le_self 2 hne
  have hhi := Nat.lt_pow_succ_log_self (b := 2) (by decide) seed.toNat
  apply BitVec.eq_of_toNat_eq
  rw [seedAfter_eq seed _ (by rw [Nat.pow_succ]; omega), Nat.div_eq_of_lt hhi]
  rfl

theorem stays_nonzero_iff {seed : BitVec 32} (h : seed ≠ 0#32) (n : Nat) :
    (∀ k ≤ n, seedAfter seed k ≠ 0#32) ↔ 2 ^ n ≤ seed.toNat := by
  constructor
  · intro hall
    by_contra hlt
    have hne : seed.toNat ≠ 0 := fun hz => h (BitVec.eq_of_toNat_eq hz)
    have hle : Nat.log 2 seed.toNat + 1 ≤ n :=
      Nat.log_lt_of_lt_pow hne (Nat.lt_of_not_le hlt)
    exact hall _ hle (seedAfter_reaches_zero h)
  · intro hpow k hk
    exact seedAfter_ne_zero (Nat.le_trans (Nat.pow_le_pow_right (by decide) hk) hpow)

/-- From two different seeds `n` calls of `rand` keep the states nonzero and
different if and only if both seeds have a bit at position `n` or above and they
differ there. So every seed reaches the zero state, after at most 32 calls. -/
theorem rand_states_iff (s t : BitVec 32) (hs : s ≠ 0#32) (ht : t ≠ 0#32) (n : Nat) :
    ((∀ k ≤ n, seedAfter (srand s) k ≠ 0#32 ∧ seedAfter (srand t) k ≠ 0#32 ∧
        seedAfter (srand s) k ≠ seedAfter (srand t) k) ↔
      2 ^ n ≤ s.toNat ∧ 2 ^ n ≤ t.toNat ∧ s.toNat / 2 ^ n ≠ t.toNat / 2 ^ n) ∧
      ∃ k ≤ 32, seedAfter (srand s) k = 0#32 := by
  unfold srand
  have hdiv : ∀ {k : Nat}, 2 ^ k ≤ s.toNat → 2 ^ k ≤ t.toNat →
      (seedAfter s k ≠ seedAfter t k ↔ s.toNat / 2 ^ k ≠ t.toNat / 2 ^ k) := by
    intro k h1 h2
    rw [← seedAfter_eq s k (by omega), ← seedAfter_eq t k (by omega), ne_eq, ne_eq,
      BitVec.toNat_inj]
  refine ⟨⟨?_, ?_⟩, Nat.log 2 s.toNat + 1, ?_, seedAfter_reaches_zero hs⟩
  · intro hall
    have h1 := (stays_nonzero_iff hs n).mp fun k hk => (hall k hk).1
    have h2 := (stays_nonzero_iff ht n).mp fun k hk => (hall k hk).2.1
    exact ⟨h1, h2, (hdiv h1 h2).mp (hall n (Nat.le_refl n)).2.2⟩
  · rintro ⟨h1, h2, hne⟩ k hk
    have hpow : 2 ^ k ≤ 2 ^ n := Nat.pow_le_pow_right (by decide) hk
    refine ⟨(stays_nonzero_iff hs n).mpr h1 k hk, (stays_nonzero_iff ht n).mpr h2 k hk,
      (hdiv (by omega) (by omega)).mpr fun heq => hne ?_⟩
    obtain ⟨d, rfl⟩ := Nat.exists_eq_add_of_le hk
    rw [Nat.pow_add, ← Nat.div_div_eq_div_mul, ← Nat.div_div_eq_div_mul, heq]
  · have hne : s.toNat ≠ 0 := fun hz => hs (BitVec.eq_of_toNat_eq hz)
    exact Nat.log_lt_of_lt_pow hne s.isLt

/-- The seeds 4 and 6 stay apart for one call. -/
theorem rand_states_four_six : 4#32 ≠ 0#32 ∧ 6#32 ≠ 0#32 ∧
    ∀ k ≤ 1, seedAfter (srand 4#32) k ≠ 0#32 ∧ seedAfter (srand 6#32) k ≠ 0#32 ∧
      seedAfter (srand 4#32) k ≠ seedAfter (srand 6#32) k :=
  ⟨by decide, by decide, (rand_states_iff 4#32 6#32 (by decide) (by decide) 1).1.mpr (by decide)⟩

/-- One call takes the seed 1 to the zero state, and the seeds 2 and 3 to one state. -/
theorem rand_collapses : (rand (srand 1#32)).2 = 0#32 ∧ (rand (srand 2#32)).2 = 1#32 ∧
    (rand (srand 3#32)).2 = 1#32 := by
  decide

end Klib
