import AiOsoc.Npc.Units
import Mathlib.Algebra.Group.Nat.Defs
import Mathlib.Logic.Function.Iterate

/-!
# The timer of the abstract machine

`abstract-machine/am/src/riscv/npc/timer.c` on the CLINT. The counter runs while
it is read: `counter n` is its value at the `n`-th load of one of its halves, so
it may advance by any amount between two loads.
-/

namespace Am

set_option autoImplicit false

def CLINT_MMIO : BitVec 32 := 0x02000000#32
def MTIME_BASE : BitVec 32 := 0xbff8#32
def PLATFORM_HZ : BitVec 64 := 100000000#64

/-- The load of `mtime[k]` that finds the counter at `value`. -/
def mtime (value : BitVec 64) (k : Nat) : BitVec 32 :=
  Npc.Clint.rdata value <| CLINT_MMIO + MTIME_BASE + BitVec.ofNat 32 (4 * k)

/-- The `do` loop from load number `n` on: the value returned and the number of
the next load. -/
def readMtime (counter : Nat → BitVec 64) : Nat → Nat → Option (BitVec 64 × Nat)
  | 0, _ => none
  | turns + 1, n =>
    let hi0 := mtime (counter n) 1
    let lo := mtime (counter (n + 1)) 0
    let hi1 := mtime (counter (n + 2)) 1
    if hi0 ≠ hi1 then readMtime counter turns (n + 3)
    else some (hi1.setWidth 64 <<< 32 ||| lo.setWidth 64, n + 3)

/-- The value `__am_timer_init` leaves in `boot_time`. -/
def amTimerInit (counter : Nat → BitVec 64) (turns n : Nat) : Option (BitVec 64 × Nat) :=
  readMtime counter turns n

/-- The microseconds of `__am_timer_uptime`, from the counter it reads. -/
def uptimeUs (bootTime now : BitVec 64) : BitVec 64 :=
  let ticks := now - bootTime
  ticks * 1000000#64 / PLATFORM_HZ

def amTimerUptime (counter : Nat → BitVec 64) (bootTime : BitVec 64) (turns n : Nat) :
    Option (BitVec 64 × Nat) :=
  (readMtime counter turns n).map fun (now, n) => (uptimeUs bootTime now, n)

/-! ## The halves of the counter -/

theorem mtime_low (value : BitVec 64) : mtime value 0 = value.extractLsb' 0 32 := rfl

theorem mtime_high (value : BitVec 64) : mtime value 1 = value.extractLsb' 32 32 := rfl

theorem join_halves (v : BitVec 64) :
    (v.extractLsb' 32 32).setWidth 64 <<< 32 ||| (v.extractLsb' 0 32).setWidth 64 = v := by
  apply BitVec.eq_of_getLsbD_eq
  intro i hi
  simp only [BitVec.getLsbD_or, BitVec.getLsbD_shiftLeft, BitVec.getLsbD_setWidth,
    BitVec.getLsbD_extractLsb']
  grind

theorem high_toNat (v : BitVec 64) : (mtime v 1).toNat = v.toNat / 2 ^ 32 := by
  have := v.isLt
  rw [mtime_high, BitVec.extractLsb'_toNat, Nat.shiftRight_eq_div_pow]
  exact Nat.mod_eq_of_lt (by omega)

/-- A high half that is the same before and after did not change in between. -/
theorem high_between {a b c : BitVec 64} (hab : a.toNat ≤ b.toNat) (hbc : b.toNat ≤ c.toNat)
    (h : mtime a 1 = mtime c 1) : mtime c 1 = mtime b 1 := by
  have hnat := congrArg BitVec.toNat h
  apply BitVec.eq_of_toNat_eq
  rw [high_toNat, high_toNat] at hnat ⊢
  have h1 : a.toNat / 2 ^ 32 ≤ b.toNat / 2 ^ 32 := Nat.div_le_div_right hab
  have h2 : b.toNat / 2 ^ 32 ≤ c.toNat / 2 ^ 32 := Nat.div_le_div_right hbc
  omega

/-! ## Reading the counter -/

/-- The counter does not go back, up to load number `last`. -/
def NonDecreasing (counter : Nat → BitVec 64) (last : Nat) : Prop :=
  ∀ m n, m ≤ n → n < last → (counter m).toNat ≤ (counter n).toNat

section Read
variable {counter : Nat → BitVec 64} {last : Nat}

/-- The loads of a call are numbered from `n`, three in a turn; the last one of
the low word has the number `next - 2`. -/
theorem readMtime_eq (hmono : NonDecreasing counter last) {turns n next : Nat} {v : BitVec 64}
    (h : readMtime counter turns n = some (v, next)) (hlast : next ≤ last) :
    n + 3 ≤ next ∧ v = counter (next - 2) := by
  induction turns generalizing n with
  | zero => cases h
  | succ turns ih =>
    simp only [readMtime] at h
    split at h
    · obtain ⟨hle, hv⟩ := ih h
      exact ⟨by omega, hv⟩
    · rename_i hsame
      obtain ⟨hv, rfl⟩ := Prod.mk.inj (Option.some.inj h)
      have hhigh := high_between (hmono n (n + 1) (by omega) (by omega))
        (hmono (n + 1) (n + 2) (by omega) (by omega)) (not_not.mp hsame)
      refine ⟨Nat.le_refl _, ?_⟩
      rw [← hv, hhigh, mtime_high, mtime_low, join_halves]
      rfl

/-- `read_mtime` never returns a torn value: what it returns is the counter at its
last load of the low word, so later calls return no less. -/
theorem readMtime_not_torn (counter : Nat → BitVec 64) (last : Nat)
    (hmono : NonDecreasing counter last) (turns n next : Nat) (v : BitVec 64)
    (h : readMtime counter turns n = some (v, next)) (hlast : next ≤ last) :
    v = counter (next - 2) ∧
      ∀ turns' n' next' v', next ≤ n' → readMtime counter turns' n' = some (v', next') →
        next' ≤ last → v.toNat ≤ v'.toNat := by
  obtain ⟨-, hv⟩ := readMtime_eq hmono h hlast
  refine ⟨hv, ?_⟩
  intro turns' n' next' v' hlater h' hlast'
  obtain ⟨hle, hv'⟩ := readMtime_eq hmono h' hlast'
  rw [hv, hv']
  exact hmono _ _ (by omega) (by omega)

end Read

/-- A counter that rolls over its low word between the second and third load. -/
def rollover (n : Nat) : BitVec 64 := BitVec.ofNat 64 (0xfffffffe + min n 8)

/-- The first turn is torn and repeated; the value returned is that of load 4. -/
theorem readMtime_rollover :
    NonDecreasing rollover 6 ∧ readMtime rollover 2 0 = some (0x100000002#64, 6) ∧
      0x100000002#64 = rollover (6 - 2) := by
  have hmono : NonDecreasing rollover 6 := by
    intro m n hmn hlast
    simp only [rollover, BitVec.toNat_ofNat]
    omega
  have hread : readMtime rollover 2 0 = some (0x100000002#64, 6) := by decide
  exact ⟨hmono, hread, (readMtime_not_torn rollover 6 hmono 2 0 6 _ hread (Nat.le_refl 6)).1⟩

/-! ## On the CLINT -/

/-- The counter of the CLINT at loads in the given cycles after reset. -/
def clintCounter (cycle : Nat → Nat) (n : Nat) : BitVec 64 := Npc.Clint.next^[cycle n] 0#64

theorem clintCounter_eq (cycle : Nat → Nat) (n : Nat) :
    clintCounter cycle n = BitVec.ofNat 64 (cycle n) := by
  unfold clintCounter
  induction cycle n with
  | zero => rfl
  | succ k ih => rw [Function.iterate_succ_apply', ih, Npc.Clint.next, BitVec.ofNat_add]

/-- It does not go back before it wraps around. -/
theorem clintCounter_nonDecreasing {cycle : Nat → Nat} {last : Nat}
    (horder : ∀ m n, m ≤ n → cycle m ≤ cycle n) (hwrap : ∀ n < last, cycle n < 2 ^ 64) :
    NonDecreasing (clintCounter cycle) last := by
  intro m n hmn hlast
  have hn := hwrap n hlast
  have hm := hwrap m (by omega)
  rw [clintCounter_eq, clintCounter_eq, BitVec.toNat_ofNat, BitVec.toNat_ofNat,
    Nat.mod_eq_of_lt hm, Nat.mod_eq_of_lt hn]
  exact horder m n hmn

/-! ## Uptime -/

/-- The microseconds since `bootTime`, as a number. -/
def exactUs (bootTime now : BitVec 64) : Nat :=
  (now.toNat - bootTime.toNat) * 1000000 / 100000000

theorem uptimeUs_toNat {bootTime now : BitVec 64} (h : bootTime ≤ now) :
    (uptimeUs bootTime now).toNat =
      (now.toNat - bootTime.toNat) * 1000000 % 2 ^ 64 / 100000000 := by
  rw [uptimeUs, BitVec.toNat_udiv, BitVec.toNat_mul, BitVec.toNat_sub_of_le h]
  rfl

/-- The product is exact below `2 ^ 64`, and what is lost above it shows. -/
theorem uptimeUs_exact_iff {bootTime now : BitVec 64} (h : bootTime ≤ now) :
    (uptimeUs bootTime now).toNat = exactUs bootTime now ↔
      (now.toNat - bootTime.toNat) * 1000000 < 2 ^ 64 := by
  rw [uptimeUs_toNat h, exactUs]
  omega

theorem ticks_mono {bootTime t1 t2 : BitVec 64} (h : t1 ≤ t2) :
    (t1.toNat - bootTime.toNat) * 1000000 ≤ (t2.toNat - bootTime.toNat) * 1000000 := by
  apply Nat.mul_le_mul_right
  exact Nat.sub_le_sub_right h _

theorem exactUs_mono {bootTime t1 t2 : BitVec 64} (h : t1 ≤ t2) :
    exactUs bootTime t1 ≤ exactUs bootTime t2 :=
  Nat.div_le_div_right (ticks_mono h)

/-- `__am_timer_uptime` reports the exact number of microseconds at two times and
does not go back between them, if and only if the product of the ticks at the
later time does not overflow. -/
theorem uptime_exact_monotone_iff (bootTime t1 t2 : BitVec 64) (hboot : bootTime ≤ t1)
    (hle : t1 ≤ t2) :
    ((uptimeUs bootTime t1).toNat = exactUs bootTime t1 ∧
        (uptimeUs bootTime t2).toNat = exactUs bootTime t2 ∧
        (uptimeUs bootTime t1).toNat ≤ (uptimeUs bootTime t2).toNat) ↔
      (t2.toNat - bootTime.toNat) * 1000000 < 2 ^ 64 := by
  have hboot2 : bootTime ≤ t2 := BitVec.le_trans hboot hle
  constructor
  · rintro ⟨-, h2, -⟩
    exact (uptimeUs_exact_iff hboot2).mp h2
  · intro h
    have h1 := (uptimeUs_exact_iff hboot).mpr (Nat.lt_of_le_of_lt (ticks_mono hle) h)
    have h2 := (uptimeUs_exact_iff hboot2).mpr h
    refine ⟨h1, h2, ?_⟩
    rw [h1, h2]
    exact exactUs_mono hle

/-- After one second the uptime is 1000000 microseconds. -/
theorem uptime_one_second :
    5#64 ≤ 6#64 ∧ 6#64 ≤ 100000005#64 ∧ (uptimeUs 5#64 100000005#64).toNat = 1000000 ∧
      (uptimeUs 5#64 100000005#64).toNat = exactUs 5#64 100000005#64 :=
  ⟨by decide, by decide, by decide +kernel,
    ((uptime_exact_monotone_iff 5#64 6#64 100000005#64 (by decide) (by decide)).mpr
      (by decide +kernel)).2.1⟩

/-- From one tick to the next, after 51 hours, the uptime falls back to zero. -/
theorem uptime_falls_back :
    (uptimeUs 0#64 18446744073709#64).toNat = 184467440737 ∧
      (uptimeUs 0#64 18446744073710#64).toNat = 0 ∧
      exactUs 0#64 18446744073710#64 = 184467440737 := by
  decide

/-! ## Uptime on a running counter -/

section Running
variable {counter : Nat → BitVec 64} {last : Nat} {bootTime : BitVec 64}

theorem amTimerUptime_eq (hmono : NonDecreasing counter last) {turns n next : Nat}
    {us : BitVec 64} (h : amTimerUptime counter bootTime turns n = some (us, next))
    (hlast : next ≤ last) :
    n + 3 ≤ next ∧ us = uptimeUs bootTime (counter (next - 2)) := by
  obtain ⟨⟨now, next'⟩, hread, hus⟩ := Option.map_eq_some_iff.mp h
  obtain ⟨rfl, rfl⟩ := Prod.mk.inj hus
  obtain ⟨hle, rfl⟩ := readMtime_eq hmono hread hlast
  exact ⟨hle, rfl⟩

/-- Calls of `__am_timer_uptime` after `__am_timer_init` report the microseconds from
its load of the low word to their own and do not go back, until the product of the
last of them overflows. -/
theorem amTimerUptime_exact_mono (hmono : NonDecreasing counter last)
    {boots n₀ booted : Nat} (hinit : amTimerInit counter boots n₀ = some (bootTime, booted))
    {turns n next : Nat} {us : BitVec 64} (hn : booted ≤ n)
    (h : amTimerUptime counter bootTime turns n = some (us, next))
    {turns' n' next' : Nat} {us' : BitVec 64} (hn' : next ≤ n')
    (h' : amTimerUptime counter bootTime turns' n' = some (us', next')) (hlast : next' ≤ last)
    (hfit : ((counter (next' - 2)).toNat - bootTime.toNat) * 1000000 < 2 ^ 64) :
    us.toNat = exactUs bootTime (counter (next - 2)) ∧
      us'.toNat = exactUs bootTime (counter (next' - 2)) ∧ us.toNat ≤ us'.toNat := by
  obtain ⟨hle', rfl⟩ := amTimerUptime_eq hmono h' hlast
  obtain ⟨hle, rfl⟩ := amTimerUptime_eq hmono h (by omega)
  obtain ⟨hle₀, hboot⟩ := readMtime_eq hmono hinit (by omega)
  have hafter : bootTime ≤ counter (next - 2) := by
    rw [hboot]
    exact hmono _ _ (by omega) (by omega)
  have hlater : counter (next - 2) ≤ counter (next' - 2) := hmono _ _ (by omega) (by omega)
  have h1 := (uptimeUs_exact_iff hafter).mpr (Nat.lt_of_le_of_lt (ticks_mono hlater) hfit)
  have h2 := (uptimeUs_exact_iff (BitVec.le_trans hafter hlater)).mpr hfit
  refine ⟨h1, h2, ?_⟩
  rw [h1, h2]
  exact exactUs_mono hlater

end Running

end Am
