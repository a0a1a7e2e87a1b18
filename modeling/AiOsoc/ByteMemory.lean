import Mathlib.Logic.Function.Basic
import Mathlib.Algebra.Group.Nat.Defs

/-!
# A byte memory with words

Little-endian words of four bytes in a memory of 32-bit addresses, and spans of
addresses that an operation leaves as they were.
-/

namespace ByteMemory

set_option autoImplicit false

abbrev Memory := BitVec 32 → BitVec 8

def loadWord (m : Memory) (a : BitVec 32) : BitVec 32 :=
  m (a + 3#32) ++ m (a + 2#32) ++ m (a + 1#32) ++ m a

def storeWord (m : Memory) (a v : BitVec 32) : Memory := fun b =>
  if (b - a).toNat < 4 then v.extractLsb' (8 * (b - a).toNat) 8 else m b

/-- The addresses from `lo` below `hi`. -/
structure Span where
  lo : Nat
  hi : Nat
  deriving Repr, DecidableEq

namespace Span

def Contains (s : Span) (b : BitVec 32) : Prop := s.lo ≤ b.toNat ∧ b.toNat < s.hi

instance (s : Span) (b : BitVec 32) : Decidable (s.Contains b) :=
  inferInstanceAs (Decidable (_ ∧ _))

def Apart (s t : Span) : Prop := s.hi ≤ t.lo ∨ t.hi ≤ s.lo

instance (s t : Span) : Decidable (s.Apart t) := inferInstanceAs (Decidable (_ ∨ _))

/-- The span of `n` bytes at `a`. -/
def block (a : BitVec 32) (n : Nat) : Span := ⟨a.toNat, a.toNat + n⟩

def Within (s t : Span) : Prop := t.lo ≤ s.lo ∧ s.hi ≤ t.hi

end Span

/-- The bytes of `s` are the same in both memories. -/
def Same (s : Span) (m m' : Memory) : Prop := ∀ b, s.Contains b → m' b = m b

/-- A memory whose bytes in `s` are those of another one. -/
def overwrite (s : Span) (junk m : Memory) : Memory := fun b =>
  if s.Contains b then junk b else m b

/-- The loop of `memset`. -/
def memset (m : Memory) (a : BitVec 32) (c : BitVec 8) : Nat → Memory
  | 0 => m
  | n + 1 => memset (Function.update m a c) (a + 1#32) c n

/-! ## Word addresses -/

theorem toNat_and_not_three (x : BitVec 32) : (x &&& ~~~3#32).toNat = 4 * (x.toNat / 4) := by
  have h : x &&& ~~~3#32 = (x >>> 2) <<< 2 := by
    apply BitVec.eq_of_getLsbD_eq
    intro i hi
    have hthree : ∀ i < 32, (3#32).getLsbD i = decide (i < 2) := by decide
    simp only [BitVec.getLsbD_and, BitVec.getLsbD_not, BitVec.getLsbD_shiftLeft,
      BitVec.getLsbD_ushiftRight, hthree i hi]
    grind
  have hx := x.isLt
  rw [h, BitVec.toNat_shiftLeft, BitVec.toNat_ushiftRight, Nat.shiftLeft_eq,
    Nat.shiftRight_eq_div_pow]
  omega

theorem and_not_three {x : BitVec 32} (h : x.toNat % 4 = 0) : x &&& ~~~3#32 = x := by
  apply BitVec.eq_of_toNat_eq
  rw [toNat_and_not_three]
  omega

/-! ## What stays the same -/

section Spans
variable {s t : Span} {a b : BitVec 32} {n k : Nat}

theorem Span.block_contains :
    (Span.block a n).Contains b ↔ a.toNat ≤ b.toNat ∧ b.toNat < a.toNat + n := Iff.rfl

theorem Span.block_within :
    (Span.block a n).Within s ↔ s.lo ≤ a.toNat ∧ a.toNat + n ≤ s.hi := Iff.rfl

theorem Span.block_apart : (Span.block a n).Apart (.block b k) ↔
    a.toNat + n ≤ b.toNat ∨ b.toNat + k ≤ a.toNat := Iff.rfl

theorem Span.Apart.not_contains (h : s.Apart t) (hb : s.Contains b) : ¬t.Contains b := by
  unfold Span.Apart at h
  unfold Span.Contains at *
  omega

theorem Span.Within.refl (s : Span) : s.Within s := ⟨Nat.le_refl _, Nat.le_refl _⟩

theorem Span.Within.trans {r : Span} (h : r.Within s) (h' : s.Within t) : r.Within t :=
  ⟨Nat.le_trans h'.1 h.1, Nat.le_trans h.2 h'.2⟩

theorem Span.Within.contains (h : s.Within t) (hb : s.Contains b) : t.Contains b :=
  ⟨Nat.le_trans h.1 hb.1, Nat.lt_of_lt_of_le hb.2 h.2⟩

theorem Span.Apart.mono {s' t' : Span} (h : s.Apart t) (hs : s'.Within s) (ht : t'.Within t) :
    s'.Apart t' := by
  unfold Span.Apart Span.Within at *
  omega

end Spans

section Same
variable {s t : Span} {m m' m'' : Memory}

theorem Same.refl : Same s m m := fun _ _ => rfl

theorem Same.trans (h : Same s m m') (h' : Same s m' m'') : Same s m m'' := by
  intro b hb
  rw [h' b hb, h b hb]

theorem Same.mono (h : Same t m m') (hs : s.Within t) : Same s m m' := by
  intro b hb
  exact h b (hs.contains hb)

theorem overwrite_same (junk m : Memory) (h : s.Apart t) : Same s m (overwrite t junk m) := by
  intro b hb
  rw [overwrite, if_neg (h.not_contains hb)]

end Same

/-! ## Words -/

section Words
variable {s : Span} {m m' : Memory} {a : BitVec 32}

theorem loadWord_storeWord (m : Memory) (a v : BitVec 32) : loadWord (storeWord m a v) a = v := by
  have hk : ∀ k : BitVec 32, (a + k - a) = k := by
    intro k
    rw [BitVec.add_comm, BitVec.add_sub_cancel]
  have h0 : a - a = 0#32 := BitVec.sub_self a
  unfold loadWord storeWord
  simp only [hk, h0]
  apply BitVec.eq_of_getLsbD_eq
  intro i hi
  simp only [BitVec.toNat_ofNat, Nat.reducePow, Nat.reduceMod, Nat.reduceLT, Nat.reduceMul,
    ↓reduceIte, BitVec.getLsbD_append, BitVec.getLsbD_extractLsb']
  grind

theorem storeWord_same (v : BitVec 32) (h : s.Apart (.block a 4)) (ha : a.toNat + 4 ≤ 2 ^ 32) :
    Same s m (storeWord m a v) := by
  intro b hb
  have hn := h.not_contains hb
  rw [Span.block_contains] at hn
  rw [storeWord, if_neg]
  rw [BitVec.toNat_sub]
  omega

theorem Same.loadWord_eq (h : Same s m m') (ha : (Span.block a 4).Within s) (hs : s.hi ≤ 2 ^ 32) :
    loadWord m' a = loadWord m a := by
  have hb : ∀ k : BitVec 32, k.toNat < 4 → m' (a + k) = m (a + k) := by
    intro k hk
    rw [Span.block_within] at ha
    apply h
    unfold Span.Contains
    rw [BitVec.toNat_add]
    omega
  have h0 := hb 0#32 (by decide)
  rw [BitVec.add_zero] at h0
  rw [loadWord, loadWord, hb 3#32 (by decide), hb 2#32 (by decide), hb 1#32 (by decide), h0]

theorem memset_apply (m : Memory) (c : BitVec 8) (n : Nat) (ha : a.toNat + n ≤ 2 ^ 32)
    (b : BitVec 32) :
    memset m a c n b = if (Span.block a n).Contains b then c else m b := by
  induction n generalizing m a with
  | zero =>
    rw [memset, if_neg]
    rw [Span.block_contains]
    omega
  | succ n ih =>
    have hnext : (a + 1#32).toNat = (a.toNat + 1) % 2 ^ 32 := BitVec.toNat_add a 1#32
    rw [memset, ih (Function.update m a c) (by omega)]
    by_cases hab : b = a
    · subst hab
      rw [Function.update_self, ite_self, if_pos]
      rw [Span.block_contains]
      omega
    · have hne : b.toNat ≠ a.toNat := fun h => hab (BitVec.eq_of_toNat_eq h)
      rw [Function.update_of_ne hab]
      congr 1
      rw [Span.block_contains, Span.block_contains, hnext, eq_iff_iff]
      omega

theorem memset_same {c : BitVec 8} {n : Nat} (h : s.Apart (.block a n))
    (ha : a.toNat + n ≤ 2 ^ 32) : Same s m (memset m a c n) := by
  intro b hb
  rw [memset_apply m c n ha, if_neg (h.not_contains hb)]

/-- The words of a cleared block. -/
theorem loadWord_memset (m : Memory) {n : Nat} {b : BitVec 32} (ha : a.toNat + n ≤ 2 ^ 32)
    (hb : (Span.block b 4).Within (.block a n)) : loadWord (memset m a 0#8 n) b = 0#32 := by
  have hsame : Same (.block a n) (fun _ => 0#8) (memset m a 0#8 n) := by
    intro b hb
    rw [memset_apply m 0#8 n ha, if_pos hb]
  rw [hsame.loadWord_eq hb ha, loadWord]
  decide

end Words

/-! ## The words of a block -/

/-- The word number `k` of the block at `c`. -/
def word (c : BitVec 32) (k : Nat) : BitVec 32 := c + BitVec.ofNat 32 (4 * k)

section Array
variable {c : BitVec 32} {n : Nat} (hc : c.toNat + n ≤ 2 ^ 32) {k : Nat} (hk : 4 * k + 4 ≤ n)
include hc hk

theorem word_toNat : (word c k).toNat = c.toNat + 4 * k := by
  rw [word, BitVec.toNat_add, BitVec.toNat_ofNat]
  omega

theorem word_within : (Span.block (word c k) 4).Within (.block c n) := by
  rw [Span.block_within, word_toNat hc hk]
  exact ⟨Nat.le_add_right _ _, by simp only [Span.block]; omega⟩

theorem word_aligned (ha : c.toNat % 4 = 0) : (word c k).toNat % 4 = 0 := by
  rw [word_toNat hc hk]
  omega

theorem storeWord_word_same {s : Span} (m : Memory) (v : BitVec 32) (hs : s.Apart (.block c n)) :
    Same s m (storeWord m (word c k) v) := by
  have h := word_toNat hc hk
  apply storeWord_same
  · exact hs.mono (.refl _) (word_within hc hk)
  · omega

theorem loadWord_word_same {m m' : Memory} (h : Same (.block c n) m m') :
    loadWord m' (word c k) = loadWord m (word c k) :=
  h.loadWord_eq (word_within hc hk) hc

theorem loadWord_word {j : Nat} (hj : 4 * j + 4 ≤ n) (m : Memory) (v : BitVec 32) :
    loadWord (storeWord m (word c j) v) (word c k) =
      if j = k then v else loadWord m (word c k) := by
  split
  · rename_i hjk
    rw [hjk, loadWord_storeWord]
  · have hjt := word_toNat hc hj
    have hkt := word_toNat hc hk
    have hsame : Same (.block (word c k) 4) m (storeWord m (word c j) v) := by
      apply storeWord_same
      · rw [Span.block_apart]
        omega
      · omega
    apply hsame.loadWord_eq (.refl _)
    simp only [Span.block]
    omega

end Array

end ByteMemory
