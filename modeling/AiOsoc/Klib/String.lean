import AiOsoc.ByteMemory

/-!
# Moving bytes

`memmove` and `memcpy` of `abstract-machine/klib/src/string.c` on RV32. The two
loops of `memmove` run over the bytes in opposite directions; each is shown to be
the simultaneous copy as long as it writes no byte that it still has to read.
-/

namespace Klib

set_option autoImplicit false

open ByteMemory

/-- `while (n-- > 0) *d++ = *s++`. -/
def copyUp (m : Memory) (d s : BitVec 32) : Nat → Memory
  | 0 => m
  | n + 1 => copyUp (Function.update m d (m s)) (d + 1#32) (s + 1#32) n

/-- `while (n-- > 0) *--d = *--s`. -/
def copyDown (m : Memory) (d s : BitVec 32) : Nat → Memory
  | 0 => m
  | n + 1 =>
    copyDown (Function.update m (d - 1#32) (m (s - 1#32))) (d - 1#32) (s - 1#32) n

/-- `memmove`: the memory it leaves, and the pointer returned. -/
def memmove (m : Memory) (dst src n : BitVec 32) : Memory × BitVec 32 :=
  if dst = src ∨ n = 0#32 then (m, dst)
  else if dst < src then (copyUp m dst src n.toNat, dst)
  else (copyDown m (dst + n) (src + n) n.toNat, dst)

def memcpy (m : Memory) (out inp n : BitVec 32) : Memory × BitVec 32 :=
  (copyUp m out inp n.toNat, out)

/-- The copy of `n` bytes made at once. -/
def moved (m : Memory) (d s : BitVec 32) (n : Nat) : Memory := fun b =>
  if (b - d).toNat < n then m (s + (b - d)) else m b

/-! ## The loops -/

section Loops
variable {d s : BitVec 32} {n : Nat}

theorem moved_zero (m : Memory) (d s : BitVec 32) : moved m d s 0 = m := by
  funext b
  rw [moved, if_neg (Nat.not_lt_zero _)]

theorem moved_self (m : Memory) (d : BitVec 32) (n : Nat) : moved m d d n = m := by
  funext b
  rw [moved, BitVec.add_comm d, BitVec.sub_add_cancel, ite_self]

/-- An address by its distance from another one. -/
theorem add_distance (a b : BitVec 32) : a + BitVec.ofNat 32 (b - a).toNat = b := by
  rw [BitVec.ofNat_toNat, BitVec.setWidth_eq, BitVec.add_comm, BitVec.sub_add_cancel]

theorem distance_pos {a b : BitVec 32} (h : b ≠ a) : 0 < (b - a).toNat := by
  rw [Nat.pos_iff_ne_zero]
  intro h0
  apply h
  rw [← add_distance a b, h0, BitVec.add_zero]

theorem distance_succ {a b : BitVec 32} (h : b ≠ a) :
    (b - (a + 1#32)).toNat + 1 = (b - a).toNat := by
  have hpos := distance_pos h
  have hlt := (b - a).isLt
  have hsub : b - (a + 1#32) = b - a - 1#32 := by rw [BitVec.sub_sub]
  rw [hsub, BitVec.toNat_sub_of_le (show 1#32 ≤ b - a from hpos)]
  show (b - a).toNat - 1 + 1 = (b - a).toNat
  omega

/-- Going up, the byte written is none of those read later. -/
theorem copyUp_eq (hn : n ≤ 2 ^ 32)
    (h : ∀ i j, i < j → j < n → d + BitVec.ofNat 32 i ≠ s + BitVec.ofNat 32 j) (m : Memory) :
    copyUp m d s n = moved m d s n := by
  induction n generalizing m d s with
  | zero => rw [copyUp, moved_zero]
  | succ n ih =>
    have hrest : ∀ i j, i < j → j < n →
        d + 1#32 + BitVec.ofNat 32 i ≠ s + 1#32 + BitVec.ofNat 32 j := by
      intro i j hij hj
      have := h (i + 1) (j + 1) (by omega) (by omega)
      rwa [BitVec.add_assoc, BitVec.add_assoc, BitVec.add_comm 1#32, BitVec.add_comm 1#32,
        ← BitVec.ofNat_add, ← BitVec.ofNat_add]
    rw [copyUp, ih (by omega) hrest]
    funext b
    by_cases hb : b = d
    · subst hb
      have hfar : (b - (b + 1#32)).toNat = 2 ^ 32 - 1 := by bv_omega
      rw [moved, if_neg (by omega), Function.update_self, moved, BitVec.sub_self,
        BitVec.toNat_zero, if_pos (Nat.succ_pos n), BitVec.add_zero]
    · have hdist := distance_succ hb
      have hread : s + 1#32 + (b - (d + 1#32)) = s + (b - d) := by bv_omega
      by_cases hin : (b - d).toNat < n + 1
      · have hne : s + (b - d) ≠ d := by
          intro heq
          apply h 0 (b - d).toNat (distance_pos hb) hin
          rw [BitVec.add_zero, BitVec.ofNat_toNat, BitVec.setWidth_eq, heq]
        rw [moved, if_pos (by omega), hread, Function.update_of_ne hne, moved, if_pos hin]
      · rw [moved, if_neg (by omega), Function.update_of_ne hb, moved, if_neg hin]

/-- Going down likewise; the pointers begin behind the blocks. -/
theorem copyDown_eq (hn : n ≤ 2 ^ 32)
    (h : ∀ i j, j < i → i < n → d + BitVec.ofNat 32 i ≠ s + BitVec.ofNat 32 j) (m : Memory) :
    copyDown m (d + BitVec.ofNat 32 n) (s + BitVec.ofNat 32 n) n = moved m d s n := by
  induction n generalizing m with
  | zero => rw [copyDown, moved_zero]
  | succ n ih =>
    have hlast : ∀ a : BitVec 32, a + BitVec.ofNat 32 (n + 1) - 1#32 = a + BitVec.ofNat 32 n := by
      intro a
      rw [BitVec.ofNat_add, ← BitVec.add_assoc, BitVec.add_sub_cancel]
    rw [copyDown, hlast d, hlast s, ih (by omega) fun i j hij hi => h i j hij (by omega)]
    funext b
    by_cases hb : b = d + BitVec.ofNat 32 n
    · subst hb
      have hoff : d + BitVec.ofNat 32 n - d = BitVec.ofNat 32 n := by
        rw [BitVec.add_comm, BitVec.add_sub_cancel]
      have hnat : (BitVec.ofNat 32 n).toNat = n := by
        rw [BitVec.toNat_ofNat]
        exact Nat.mod_eq_of_lt (by omega)
      rw [moved, hoff, hnat, if_neg (Nat.lt_irrefl n), Function.update_self, moved, hoff, hnat,
        if_pos (Nat.lt_succ_self n)]
    · have hdist : (b - d).toNat ≠ n := by
        intro heq
        apply hb
        rw [← heq, add_distance]
      by_cases hin : (b - d).toNat < n
      · have hne : s + (b - d) ≠ d + BitVec.ofNat 32 n := by
          intro heq
          apply h n (b - d).toNat hin (Nat.lt_succ_self n)
          rw [BitVec.ofNat_toNat, BitVec.setWidth_eq, heq]
        rw [moved, if_pos hin, Function.update_of_ne hne, moved, if_pos (by omega)]
      · rw [moved, if_neg hin, Function.update_of_ne hb, moved, if_neg (by omega)]

end Loops

/-! ## The functions -/

section Functions
variable {dst src n : BitVec 32}

theorem offset_toNat {a : BitVec 32} (ha : a.toNat + n.toNat ≤ 2 ^ 32) {i : Nat}
    (hi : i < n.toNat) : (a + BitVec.ofNat 32 i).toNat = a.toNat + i := by
  rw [BitVec.toNat_add, BitVec.toNat_ofNat, Nat.add_mod_mod]
  exact Nat.mod_eq_of_lt (by omega)

section Bounds
variable (hd : dst.toNat + n.toNat ≤ 2 ^ 32) (hs : src.toNat + n.toNat ≤ 2 ^ 32)
include hd hs

theorem copyUp_moves (h : dst ≤ src ∨ src.toNat + n.toNat ≤ dst.toNat) (m : Memory) :
    copyUp m dst src n.toNat = moved m dst src n.toNat := by
  apply copyUp_eq (Nat.le_of_lt n.isLt)
  intro i j hij hj heq
  have hnat := congrArg BitVec.toNat heq
  rw [offset_toNat hd (by omega), offset_toNat hs hj] at hnat
  rw [BitVec.le_def] at h
  omega

theorem copyDown_moves (h : src ≤ dst) (m : Memory) :
    copyDown m (dst + n) (src + n) n.toNat = moved m dst src n.toNat := by
  have hloop := copyDown_eq (d := dst) (s := src) (Nat.le_of_lt n.isLt) ?_ m
  · rwa [BitVec.ofNat_toNat, BitVec.setWidth_eq] at hloop
  intro i j hij hi heq
  have hnat := congrArg BitVec.toNat heq
  rw [offset_toNat hd hi, offset_toNat hs (by omega)] at hnat
  rw [BitVec.le_def] at h
  omega

theorem memmove_eq (m : Memory) : memmove m dst src n = (moved m dst src n.toNat, dst) := by
  unfold memmove
  by_cases hsame : dst = src ∨ n = 0#32
  · rw [if_pos hsame]
    rcases hsame with rfl | rfl
    · rw [moved_self]
    · rw [BitVec.toNat_zero, moved_zero]
  rw [if_neg hsame]
  by_cases hlt : dst < src
  · rw [if_pos hlt, copyUp_moves hd hs (.inl (BitVec.le_of_lt hlt))]
  · rw [if_neg hlt, copyDown_moves hd hs (BitVec.not_lt.mp hlt)]

/-- Where the blocks do not overlap, or the destination is the lower one, `memcpy`
does the same. -/
theorem memcpy_eq_memmove (h : dst ≤ src ∨ src.toNat + n.toNat ≤ dst.toNat) (m : Memory) :
    memcpy m dst src n = memmove m dst src n := by
  rw [memmove_eq hd hs, memcpy, copyUp_moves hd hs h]

end Bounds

/-- `memmove` copies all bytes at once, whether the blocks are apart, equal or
overlap on either side, and touches nothing else. -/
theorem memmove_simultaneous (m : Memory) (dst src n : BitVec 32)
    (hd : dst.toNat + n.toNat ≤ 2 ^ 32) (hs : src.toNat + n.toNat ≤ 2 ^ 32) :
    (∀ i < n.toNat,
      (memmove m dst src n).1 (dst + BitVec.ofNat 32 i) = m (src + BitVec.ofNat 32 i)) ∧
    (∀ b : BitVec 32, ¬ (Span.block dst n.toNat).Contains b → (memmove m dst src n).1 b = m b) ∧
    (memmove m dst src n).2 = dst := by
  rw [memmove_eq hd hs]
  refine ⟨?_, ?_, rfl⟩
  · intro i hi
    have hoff : dst + BitVec.ofNat 32 i - dst = BitVec.ofNat 32 i := by
      rw [BitVec.add_comm, BitVec.add_sub_cancel]
    have hnat : (BitVec.ofNat 32 i).toNat = i := by
      rw [BitVec.toNat_ofNat]
      exact Nat.mod_eq_of_lt (by omega)
    show moved m dst src n.toNat (dst + BitVec.ofNat 32 i) = _
    rw [moved, hoff, hnat, if_pos hi]
  · intro b hb
    rw [Span.block_contains] at hb
    show moved m dst src n.toNat b = _
    rw [moved, if_neg]
    rw [BitVec.toNat_sub]
    omega

end Functions

/-- Three bytes moved up by one: the last two are overwritten, none too early. -/
theorem memmove_overlapping :
    let m : Memory := fun b => b.setWidth 8
    (memmove m 0x101#32 0x100#32 3#32).1 0x103#32 = 0x02#8 ∧
      (memmove m 0x101#32 0x100#32 3#32).1 0x100#32 = 0x00#8 := by
  intro m
  obtain ⟨hcopied, hframe, -⟩ := memmove_simultaneous m 0x101#32 0x100#32 3#32 (by decide)
    (by decide)
  exact ⟨hcopied 2 (by decide), hframe 0x100#32 (by decide)⟩

end Klib
