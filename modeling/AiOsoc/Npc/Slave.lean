import AiOsoc.Npc.Run

/-!
# The slave side of the bus

What the slave sees of a run: the read burst it is answering and the beats it
has given. A conforming slave ends a burst with its last beat, a responsive one
answers every request some time; nothing else is asked of it.
-/

namespace Npc.Core

set_option autoImplicit false

/-- The last read the slave accepted, and the beats it has returned for it. -/
structure Burst where
  addr : BitVec 32
  len : Nat
  beat : Nat
  deriving Repr, DecidableEq

def Burst.next (b : Burst) (m : AxiMaster.State) (axi : AxiIn) : Burst :=
  if AxiMaster.arFire m axi then ⟨AxiMaster.araddr m, (AxiMaster.arlen m).toNat, 0⟩
  else if AxiMaster.rFire m axi then { b with beat := b.beat + 1 } else b

namespace Run
variable (r : Run)

def arFire (n : Nat) : Bool := AxiMaster.arFire (r.state n).axi (r.axi n)
def rFire (n : Nat) : Bool := AxiMaster.rFire (r.state n).axi (r.axi n)
def awFire (n : Nat) : Bool := AxiMaster.awFire (r.state n).axi (r.axi n)
def wFire (n : Nat) : Bool := AxiMaster.wFire (r.state n).axi (r.axi n)
def bFire (n : Nat) : Bool := AxiMaster.bFire (r.state n).axi (r.axi n)

def burst : Nat → Burst
  | 0 => ⟨0#32, 0, 0⟩
  | n + 1 => (burst n).next (r.state n).axi (r.axi n)

/-- Every read returns `arlen + 1` beats, with `rlast` on the last one only. -/
def Conforming : Prop :=
  ∀ n, r.rFire n = true → ((r.axi n).rlast = true ↔ (r.burst n).beat = (r.burst n).len)

/-- Every request is answered after some number of cycles. -/
structure Responsive : Prop where
  ar : ∀ n, AxiMaster.arvalid (r.state n).axi = true → ∃ m, n ≤ m ∧ (r.axi m).arready = true
  read : ∀ n, AxiMaster.rready (r.state n).axi = true → ∃ m, n ≤ m ∧ (r.axi m).rvalid = true
  aw : ∀ n, AxiMaster.awvalid (r.state n).axi = true → ∃ m, n ≤ m ∧ (r.axi m).awready = true
  w : ∀ n, AxiMaster.wvalid (r.state n).axi = true → ∃ m, n ≤ m ∧ (r.axi m).wready = true
  b : ∀ n, AxiMaster.bready (r.state n).axi = true → ∃ m, n ≤ m ∧ (r.axi m).bvalid = true

/-- What the master counts during the data phase is what the slave counts. -/
structure BurstTracked (n : Nat) : Prop where
  addr : (r.burst n).addr = (r.state n).axi.addrQ
  len : (r.burst n).len = (r.state n).axi.lenQ.toNat
  beat : (r.burst n).beat = (r.state n).axi.readBeatQ.toNat
  bound : (r.state n).axi.readBeatQ.toNat ≤ (r.state n).axi.lenQ.toNat

theorem state_axi_succ (n : Nat) : (r.state (n + 1)).axi =
    AxiMaster.next (r.state n).axi (axiReq (r.state n) (r.input n)) (r.axi n) := rfl

/-- Before the data phase the beat counter is zero. -/
theorem readBeat_zero (n : Nat) (hs : (r.state n).axi.state = .readAddr) :
    (r.state n).axi.readBeatQ = 0#8 := by
  induction n with
  | zero => rfl
  | succ n ih =>
    rw [r.state_axi_succ] at hs ⊢
    rcases AxiMaster.next_eq_readAddr hs with ⟨_, hb⟩ | ⟨hp, hsame⟩
    · exact hb
    · rw [hsame]
      exact ih hp

theorem burst_tracked (n : Nat) (hs : (r.state n).axi.state = .readData) : r.BurstTracked n := by
  induction n with
  | zero =>
    have h0 : (r.state 0).axi.state = .idle := rfl
    rw [h0] at hs
    exact absurd hs (by decide)
  | succ n ih =>
    rw [r.state_axi_succ] at hs
    rcases AxiMaster.next_eq_readData hs with
      ⟨hp, ha, hn⟩ | ⟨hp, hv, hn⟩ | ⟨hp, hv, _, hne, h1, h2, h3⟩
    · have hf : AxiMaster.arFire (r.state n).axi (r.axi n) = true := by
        simp [AxiMaster.arFire, AxiMaster.arvalid, hp, ha]
      have hb := r.readBeat_zero n hp
      constructor <;>
        simp [burst, Burst.next, hf, r.state_axi_succ, hn, AxiMaster.araddr, AxiMaster.arlen, hb]
    · have hf : AxiMaster.arFire (r.state n).axi (r.axi n) = false := by
        simp [AxiMaster.arFire, AxiMaster.arvalid, hp]
      have hrf : AxiMaster.rFire (r.state n).axi (r.axi n) = false := by
        simp [AxiMaster.rFire, hv]
      have hold := ih hp
      constructor <;>
        simp [burst, Burst.next, hf, hrf, r.state_axi_succ, hn, hold.addr, hold.len, hold.beat,
          hold.bound]
    · have hf : AxiMaster.arFire (r.state n).axi (r.axi n) = false := by
        simp [AxiMaster.arFire, AxiMaster.arvalid, hp]
      have hrf : AxiMaster.rFire (r.state n).axi (r.axi n) = true := by
        simp [AxiMaster.rFire, AxiMaster.rready, hp, hv]
      have hold := ih hp
      have hbound := hold.bound
      have hlt : (r.state n).axi.readBeatQ.toNat < (r.state n).axi.lenQ.toNat := by
        have hne' : (r.state n).axi.readBeatQ.toNat ≠ (r.state n).axi.lenQ.toNat :=
          fun he => hne (BitVec.eq_of_toNat_eq he)
        omega
      have hlen := (r.state n).axi.lenQ.isLt
      have hsucc : ((r.state n).axi.readBeatQ + 1#8).toNat =
          (r.state n).axi.readBeatQ.toNat + 1 := by
        rw [BitVec.toNat_add]
        simp only [BitVec.toNat_ofNat]
        omega
      constructor <;>
        simp only [burst, Burst.next, hf, hrf, r.state_axi_succ, h1, h2, h3, hsucc,
          Bool.false_eq_true, if_true, if_false, hold.addr, hold.len, hold.beat]
      omega

/-- A conforming slave ends a burst exactly when the master counts its last beat. -/
theorem Conforming.rlast_iff {r : Run} (hc : r.Conforming) {n : Nat} (hf : r.rFire n = true) :
    (r.axi n).rlast = true ↔ (r.state n).axi.readBeatQ = (r.state n).axi.lenQ := by
  have hs : (r.state n).axi.state = .readData := by
    simp only [rFire, AxiMaster.rFire, AxiMaster.rready, Bool.and_eq_true, decide_eq_true_eq] at hf
    exact hf.1
  have ht := r.burst_tracked n hs
  rw [hc n hf, ht.beat, ht.len]
  constructor
  · exact BitVec.eq_of_toNat_eq
  · intro he
    rw [he]

theorem nopRun_conforming : nopRun.Conforming := by
  intro n hf
  by_cases hn : n < 7
  · have hall : ∀ m, m < 7 → nopRun.rFire m = true →
        ((nopRun.axi m).rlast = true ↔ (nopRun.burst m).beat = (nopRun.burst m).len) := by
      decide +kernel
    exact hall n hn hf
  · simp [rFire, AxiMaster.rFire, nopRun, hn] at hf

/-! ## Runs against a given slave -/

section React
variable {σ : Type} (init : σ) (next : σ → AxiMaster.State → AxiIn → σ) (drive : σ → AxiIn)

/-- The core and the slave clocked together. -/
def reactTrace : Nat → State × σ
  | 0 => (step blank ⟨true, 0#32, drive init⟩, init)
  | n + 1 =>
    let p := reactTrace n
    (clock p.1 ⟨false, 0#32, drive p.2⟩, next p.2 p.1.axi (drive p.2))

def react : Run := ⟨blank, 0#32, fun n => drive (reactTrace init next drive n).2⟩

theorem react_state (n : Nat) :
    (react init next drive).state n = (reactTrace init next drive n).1 := by
  induction n with
  | zero => rfl
  | succ n ih =>
    rw [state_succ, ih]
    rfl

/-- Anything that follows the bus as the slave does is the state of the slave. -/
theorem react_slave (view : Nat → σ) (h0 : view 0 = init)
    (hs : ∀ n, view (n + 1) =
      next (view n) ((react init next drive).state n).axi ((react init next drive).axi n))
    (n : Nat) : view n = (reactTrace init next drive n).2 := by
  induction n with
  | zero => exact h0
  | succ n ih =>
    rw [hs, ih, react_state]
    rfl

end React

theorem burst_succ (n : Nat) : r.burst (n + 1) = (r.burst n).next (r.state n).axi (r.axi n) := rfl

theorem react_burst (drive : Burst → AxiIn) (n : Nat) :
    (react ⟨0#32, 0, 0⟩ Burst.next drive).burst n =
      (reactTrace ⟨0#32, 0, 0⟩ Burst.next drive n).2 :=
  react_slave _ _ _ _ rfl (burst_succ _) n

/-- A slave that accepts everything at once and answers the beats of a burst with
`word` and `resp`. -/
def eagerRun (word : Burst → BitVec 32) (resp : Burst → BitVec 2) : Run :=
  react ⟨0#32, 0, 0⟩ Burst.next
    (fun b => { eager (word b) (b.beat = b.len) with rresp := resp b })

section Eager
variable (word : Burst → BitVec 32) (resp : Burst → BitVec 2)

theorem eagerRun_axi (n : Nat) : (eagerRun word resp).axi n =
    { eager (word ((eagerRun word resp).burst n))
        (((eagerRun word resp).burst n).beat = ((eagerRun word resp).burst n).len) with
      rresp := resp ((eagerRun word resp).burst n) } := by
  unfold eagerRun
  rw [react_burst]
  rfl

theorem eagerRun_conforming : (eagerRun word resp).Conforming := by
  intro n _
  rw [eagerRun_axi]
  simp [eager]

theorem eagerRun_responsive : (eagerRun word resp).Responsive := by
  constructor <;> exact fun n _ => ⟨n, Nat.le_refl n, rfl⟩

end Eager

end Run

end Npc.Core
