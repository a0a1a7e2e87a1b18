import AiOsoc.ByteMemory
import AiOsoc.Klib.Stdlib
import Mathlib.Algebra.Group.Nat.Defs
import Mathlib.Tactic.SplitIfs

/-!
# Blocks of the heap

`malloc` moves a pointer down from the end of the heap by the rounded size. As
long as neither the rounding nor the subtraction wraps around, the blocks stand
below one another inside the heap.
-/

namespace Klib

set_option autoImplicit false

/-- The pointer as a call uses it: `NULL` stands for the end of the heap. -/
def Heap.current (heap : Heap) (ptr : BitVec 32) : BitVec 32 :=
  if ptr = 0#32 then heap.stop else ptr

/-- One call: the static `ptr` before and after it, the request and the result. -/
structure MallocCall where
  before : BitVec 32
  size : SizeT
  result : BitVec 32
  after : BitVec 32
  deriving Repr, DecidableEq

/-- The calls of a run with the given sizes. -/
def mallocRun (heap : Heap) (ptr : BitVec 32) : List SizeT → List MallocCall
  | [] => []
  | size :: sizes =>
    let (result, after) := malloc heap ptr size
    ⟨ptr, size, result, after⟩ :: mallocRun heap after sizes

/-- The bytes of the block lie inside the heap and begin at a word. -/
def MallocCall.Inside (heap : Heap) (c : MallocCall) : Prop :=
  heap.start.toNat ≤ c.result.toNat ∧ c.result.toNat + c.size.toNat ≤ heap.stop.toNat ∧
    c.result.toNat % 4 = 0

/-- No byte belongs to both blocks. -/
def MallocCall.Apart (a b : MallocCall) : Prop :=
  ∀ addr : Nat, ¬ (a.result.toNat ≤ addr ∧ addr < a.result.toNat + a.size.toNat ∧
    b.result.toNat ≤ addr ∧ addr < b.result.toNat + b.size.toNat)

/-- What is asked of a run: blocks inside the heap, apart from each other, and no
change of the state by a call that returns `NULL`. -/
def SoundRun (heap : Heap) (calls : List MallocCall) : Prop :=
  (∀ c ∈ calls, c.result ≠ 0#32 → c.Inside heap) ∧
    (∀ c ∈ calls, c.result = 0#32 → heap.current c.after = heap.current c.before) ∧
    calls.Pairwise fun a b => a.result ≠ 0#32 → b.result ≠ 0#32 → a.Apart b

/-- The call is refused, or the rounded size neither wraps nor reaches down to
address zero. A heap that begins at address zero may also be asked for as a whole
while it is untouched, which returns `NULL`. -/
def Fits (heap : Heap) (ptr : BitVec 32) (size : SizeT) : Prop :=
  heap.current ptr - ROUNDUP size 4#32 < heap.start ∨
    (size.toNat + 3 < 2 ^ 32 ∧ ROUNDUP size 4#32 < heap.current ptr) ∨
    (ROUNDUP size 4#32 = heap.current ptr ∧ heap.current ptr = heap.stop)

instance (heap : Heap) (ptr : BitVec 32) (size : SizeT) : Decidable (Fits heap ptr size) :=
  inferInstanceAs (Decidable (_ ∨ _))

/-! ## Rounding -/

theorem toNat_roundup (size : SizeT) :
    (ROUNDUP size 4#32).toNat = 4 * ((size.toNat + 3) % 2 ^ 32 / 4) := by
  have hadd : size + 4#32 - 1#32 = size + 3#32 := by
    rw [BitVec.sub_eq_add_neg, BitVec.add_assoc]
    rfl
  rw [ROUNDUP, hadd, show (4#32 - 1#32 : BitVec 32) = 3#32 from rfl,
    ByteMemory.toNat_and_not_three, BitVec.toNat_add]
  rfl

/-! ## One call -/

section Call
variable {heap : Heap} {ptr : BitVec 32} (size : SizeT)

/-- The state between calls: the pointer is a word of the heap, or its end. -/
structure Heap.Holds (heap : Heap) (ptr : BitVec 32) : Prop where
  lo : heap.start.toNat ≤ (heap.current ptr).toNat
  hi : (heap.current ptr).toNat ≤ heap.stop.toNat
  word : (heap.current ptr).toNat % 4 = 0

theorem Heap.holds_null (heap : Heap) : heap.Holds 0#32 where
  lo := heap.le
  hi := Nat.le_refl _
  word := heap.aligned

theorem malloc_eq : malloc heap ptr size =
    if heap.current ptr - ROUNDUP size 4#32 < heap.start then (0#32, heap.current ptr)
    else (heap.current ptr - ROUNDUP size 4#32, heap.current ptr - ROUNDUP size 4#32) := rfl

theorem Heap.current_self (heap : Heap) (ptr : BitVec 32) :
    heap.current (heap.current ptr) = heap.current ptr := by
  unfold Heap.current
  split_ifs <;> simp_all

theorem Heap.current_of_ne {p : BitVec 32} (h : p ≠ 0#32) : heap.current p = p := if_neg h

/-- What a call does when its size fits: it returns `NULL` and keeps the pointer,
or it returns a block that ends at or below the pointer. -/
theorem malloc_cases (h : heap.Holds ptr) (hfits : Fits heap ptr size) :
    (∃ after, malloc heap ptr size = (0#32, after) ∧ heap.current after = heap.current ptr) ∨
      ∃ p, p ≠ 0#32 ∧ malloc heap ptr size = (p, p) ∧ heap.start.toNat ≤ p.toNat ∧
        p.toNat + size.toNat ≤ (heap.current ptr).toNat ∧ p.toNat % 4 = 0 := by
  rw [malloc_eq]
  split_ifs with hlow
  · exact Or.inl ⟨_, rfl, heap.current_self ptr⟩
  · rcases hfits with hfits | ⟨hsize, hlt⟩ | ⟨hall, hstop⟩
    · exact absurd hfits hlow
    · right
      have hround := toNat_roundup size
      rw [Nat.mod_eq_of_lt hsize] at hround
      rw [BitVec.lt_def] at hlt
      have hp : (heap.current ptr - ROUNDUP size 4#32).toNat =
          (heap.current ptr).toNat - (ROUNDUP size 4#32).toNat :=
        BitVec.toNat_sub_of_le (by rw [BitVec.le_def]; omega)
      have hword := h.word
      refine ⟨_, ?_, rfl, ?_, ?_, ?_⟩
      · intro hz
        rw [hz] at hp
        simp only [BitVec.toNat_ofNat, Nat.zero_mod] at hp
        omega
      · rw [BitVec.lt_def] at hlow
        omega
      · omega
      · omega
    · rw [hall, BitVec.sub_self]
      exact Or.inl ⟨0#32, rfl, hstop.symm⟩

theorem Heap.stop_zero (h : heap.current ptr = 0#32) : heap.stop = 0#32 := by
  unfold Heap.current at h
  split_ifs at h
  · exact h
  · contradiction

/-- A call that does not fit returns a block that leaves the heap, or `NULL` after
it has moved the pointer. -/
theorem malloc_not_fits (h : heap.Holds ptr) (hfits : ¬ Fits heap ptr size) :
    ∃ p after, malloc heap ptr size = (p, after) ∧
      ((p ≠ 0#32 ∧ heap.stop.toNat < p.toNat + size.toNat) ∨
        (p = 0#32 ∧ heap.current after ≠ heap.current ptr)) := by
  simp only [Fits, not_or, not_and] at hfits
  obtain ⟨hlow, hwrap, hall⟩ := hfits
  refine ⟨_, _, by rw [malloc_eq, if_neg hlow], ?_⟩
  have hround := toNat_roundup size
  have hword := h.word
  have hstop := heap.stop.isLt
  have hsize := size.isLt
  by_cases heq : ROUNDUP size 4#32 = heap.current ptr
  · -- the block would begin at address zero
    right
    rw [heq, BitVec.sub_self]
    exact ⟨rfl, fun hcur => hall heq hcur.symm⟩
  · left
    have hne : (ROUNDUP size 4#32).toNat ≠ (heap.current ptr).toNat :=
      fun h => heq (BitVec.eq_of_toNat_eq h)
    have hp : (heap.current ptr - ROUNDUP size 4#32).toNat =
        (2 ^ 32 - (ROUNDUP size 4#32).toNat + (heap.current ptr).toNat) % 2 ^ 32 :=
      BitVec.toNat_sub _ _
    have hcur := (heap.current ptr).isLt
    refine ⟨?_, ?_⟩
    · intro hz
      rw [hz] at hp
      simp only [BitVec.toNat_ofNat, Nat.zero_mod] at hp
      omega
    · rw [BitVec.lt_def] at hwrap
      by_cases hbig : size.toNat + 3 < 2 ^ 32
      · -- the subtraction wraps
        have := hwrap hbig
        have hzero : (heap.current ptr).toNat = 0 → heap.stop.toNat = 0 := by
          intro h0
          rw [Heap.stop_zero (BitVec.eq_of_toNat_eq h0)]
          rfl
        omega
      · -- the rounding wraps
        omega

end Call

/-! ## Runs -/

section Run
variable {heap : Heap}

theorem Heap.Holds.of_current {ptr ptr' : BitVec 32} (h : heap.Holds ptr)
    (heq : heap.current ptr' = heap.current ptr) : heap.Holds ptr' where
  lo := by rw [heq]; exact h.lo
  hi := by rw [heq]; exact h.hi
  word := by rw [heq]; exact h.word

theorem mallocRun_cons (ptr : BitVec 32) (size : SizeT) (sizes : List SizeT) {p after : BitVec 32}
    (h : malloc heap ptr size = (p, after)) :
    mallocRun heap ptr (size :: sizes) = ⟨ptr, size, p, after⟩ :: mallocRun heap after sizes := by
  rw [mallocRun, h]

theorem mem_mallocRun (ptr : BitVec 32) (size : SizeT) (sizes : List SizeT) :
    ⟨ptr, size, (malloc heap ptr size).1, (malloc heap ptr size).2⟩ ∈
      mallocRun heap ptr (size :: sizes) := by
  rw [mallocRun_cons ptr size sizes (Prod.eta (malloc heap ptr size)).symm]
  exact List.mem_cons_self

theorem Heap.Holds.block {ptr p : BitVec 32} (h : heap.Holds ptr) (hp : p ≠ 0#32)
    (hlo : heap.start.toNat ≤ p.toNat) (hle : p.toNat ≤ (heap.current ptr).toNat)
    (hword : p.toNat % 4 = 0) : heap.Holds p := by
  have hhi := h.hi
  constructor <;> rw [Heap.current_of_ne hp]
  · exact hlo
  · omega
  · exact hword

theorem SoundRun.cons {c : MallocCall} {calls : List MallocCall} (h : SoundRun heap calls)
    (hin : c.result ≠ 0#32 → c.Inside heap)
    (hnull : c.result = 0#32 → heap.current c.after = heap.current c.before)
    (hapart : ∀ b ∈ calls, c.result ≠ 0#32 → b.result ≠ 0#32 → c.Apart b) :
    SoundRun heap (c :: calls) :=
  ⟨List.forall_mem_cons.mpr ⟨hin, h.1⟩, List.forall_mem_cons.mpr ⟨hnull, h.2.1⟩,
    List.pairwise_cons.mpr ⟨hapart, h.2.2⟩⟩

/-- Every block of a run ends at or below the pointer the run begins with. -/
theorem mallocRun_sound (sizes : List SizeT) {ptr : BitVec 32} (h : heap.Holds ptr)
    (hfits : ∀ c ∈ mallocRun heap ptr sizes, Fits heap c.before c.size) :
    SoundRun heap (mallocRun heap ptr sizes) ∧
      ∀ c ∈ mallocRun heap ptr sizes, c.result ≠ 0#32 →
        c.result.toNat + c.size.toNat ≤ (heap.current ptr).toNat := by
  induction sizes generalizing ptr with
  | nil =>
    refine ⟨⟨?_, ?_, List.Pairwise.nil⟩, ?_⟩ <;> exact fun c hc => absurd hc List.not_mem_nil
  | cons size sizes ih =>
    have hfirst := hfits _ (mem_mallocRun ptr size sizes)
    rcases malloc_cases size h hfirst with ⟨after, heq, hcur⟩ | ⟨p, hp, heq, hlo, hend, hword⟩
    · -- refused: the rest of the run goes on from the same pointer
      rw [mallocRun_cons ptr size sizes heq] at hfits ⊢
      obtain ⟨hsound, hbelow⟩ := ih (h.of_current hcur)
        fun c hc => hfits c (List.mem_cons_of_mem _ hc)
      rw [hcur] at hbelow
      refine ⟨hsound.cons (fun hne => absurd rfl hne) (fun _ => hcur)
        fun b _ hne => absurd rfl hne, ?_⟩
      rintro c (_ | ⟨_, hc⟩) hne
      · exact absurd rfl hne
      · exact hbelow c hc hne
    · -- the later blocks end at or below this one
      rw [mallocRun_cons ptr size sizes heq] at hfits ⊢
      have hnext := h.block hp hlo (by omega) hword
      obtain ⟨hsound, hbelow⟩ := ih hnext fun c hc => hfits c (List.mem_cons_of_mem _ hc)
      rw [Heap.current_of_ne hp] at hbelow
      refine ⟨hsound.cons (fun _ => ⟨hlo, Nat.le_trans hend h.hi, hword⟩)
        (fun hz => absurd hz hp) ?_, ?_⟩
      · intro b hb _ hne addr hboth
        have := hbelow b hb hne
        simp only at hboth
        omega
      · rintro c (_ | ⟨_, hc⟩) hne
        · exact hend
        · have := hbelow c hc hne
          omega

theorem SoundRun.tail {c : MallocCall} {calls : List MallocCall}
    (h : SoundRun heap (c :: calls)) : SoundRun heap calls :=
  ⟨fun d hd => h.1 d (List.mem_cons_of_mem c hd), fun d hd => h.2.1 d (List.mem_cons_of_mem c hd),
    h.2.2.tail⟩

/-- The first call that does not fit shows in the run. -/
theorem fits_of_sound (sizes : List SizeT) {ptr : BitVec 32} (h : heap.Holds ptr)
    (hsound : SoundRun heap (mallocRun heap ptr sizes)) :
    ∀ c ∈ mallocRun heap ptr sizes, Fits heap c.before c.size := by
  induction sizes generalizing ptr with
  | nil => exact fun c hc => absurd hc List.not_mem_nil
  | cons size sizes ih =>
    have hfirst : Fits heap ptr size := by
      by_contra hfits
      obtain ⟨p, after, heq, hbad⟩ := malloc_not_fits size h hfits
      rw [mallocRun_cons ptr size sizes heq] at hsound
      rcases hbad with ⟨hp, hout⟩ | ⟨hp, hmoved⟩
      · have hin := hsound.1 _ List.mem_cons_self hp
        exact absurd hin.2.1 (Nat.not_le.mpr hout)
      · exact hmoved (hsound.2.1 _ List.mem_cons_self hp)
    have hrest : ∀ {p after : BitVec 32}, malloc heap ptr size = (p, after) → heap.Holds after →
        ∀ c ∈ mallocRun heap ptr (size :: sizes), Fits heap c.before c.size := by
      intro p after heq hnext
      rw [mallocRun_cons ptr size sizes heq] at hsound ⊢
      rintro c (_ | ⟨_, hc⟩)
      · exact hfirst
      · exact ih hnext hsound.tail c hc
    rcases malloc_cases size h hfirst with ⟨after, heq, hcur⟩ | ⟨p, hp, heq, hlo, hend, hword⟩
    · exact hrest heq (h.of_current hcur)
    · exact hrest heq (h.block hp hlo (by omega) hword)

/-- In a run of `malloc` calls with any sizes, the blocks lie inside the heap, at
words and apart from each other, and `NULL` leaves the allocator as it was, if and
only if every call of the run fits. -/
theorem malloc_blocks_iff (heap : Heap) (sizes : List SizeT) :
    SoundRun heap (mallocRun heap 0#32 sizes) ↔
      ∀ c ∈ mallocRun heap 0#32 sizes, Fits heap c.before c.size :=
  ⟨fits_of_sound sizes heap.holds_null, fun h => (mallocRun_sound sizes heap.holds_null h).1⟩

end Run

/-- A heap of sixteen bytes. -/
def tinyHeap : Heap := ⟨0x80000000#32, 0x80000010#32, by decide, by decide⟩

/-- `malloc(0xffffffff)` is rounded to zero bytes and returns the end of the heap;
`malloc(0x90000000)` then wraps around to an address above it. -/
theorem tinyHeap_overrun :
    mallocRun tinyHeap 0#32 [0xffffffff#32, 0x90000000#32] =
        [⟨0#32, 0xffffffff#32, 0x80000010#32, 0x80000010#32⟩,
          ⟨0x80000010#32, 0x90000000#32, 0xf0000010#32, 0xf0000010#32⟩] ∧
      ¬ SoundRun tinyHeap (mallocRun tinyHeap 0#32 [0xffffffff#32]) ∧
      ¬ SoundRun tinyHeap (mallocRun tinyHeap 0#32 [0x90000000#32]) := by
  refine ⟨by decide, ?_, ?_⟩
  · rintro ⟨hin, -, -⟩
    have := hin ⟨0#32, 0xffffffff#32, 0x80000010#32, 0x80000010#32⟩ (by decide) (by decide)
    exact absurd this.2.1 (by decide)
  · rintro ⟨hin, -, -⟩
    have := hin ⟨0#32, 0x90000000#32, 0xf0000010#32, 0xf0000010#32⟩ (by decide) (by decide)
    exact absurd this.2.1 (by decide)

end Klib
