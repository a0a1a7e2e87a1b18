import AiOsoc.Npc.Cache

/-!
# Fetching from memory

A slave backed by a memory: read beats return the current word, a write takes
effect when its response is given. Against such a slave every captured word is
one that memory held after the last `fence.i`.
-/

namespace Npc.Core

set_option autoImplicit false

/-- `new` in the byte lanes of `strb`, `old` in the others. -/
def mergeBytes (old new : BitVec 32) (strb : BitVec 4) : BitVec 32 :=
  (if strb.getLsbD 3 then new.extractLsb' 24 8 else old.extractLsb' 24 8) ++
    (if strb.getLsbD 2 then new.extractLsb' 16 8 else old.extractLsb' 16 8) ++
    (if strb.getLsbD 1 then new.extractLsb' 8 8 else old.extractLsb' 8 8) ++
    (if strb.getLsbD 0 then new.extractLsb' 0 8 else old.extractLsb' 0 8)

/-- The number of the word at an address. -/
def wordOf (addr : BitVec 32) : BitVec 30 := addr.extractLsb' 2 30

/-- The memory behind the slave, with the write it has accepted. -/
structure Backing where
  addr : BitVec 32
  data : BitVec 32
  strb : BitVec 4
  mem : BitVec 30 → BitVec 32

def Backing.next (b : Backing) (m : AxiMaster.State) (axi : AxiIn) : Backing where
  addr := if AxiMaster.awFire m axi then AxiMaster.awaddr m else b.addr
  data := if AxiMaster.wFire m axi then AxiMaster.wdata m else b.data
  strb := if AxiMaster.wFire m axi then AxiMaster.wstrb m else b.strb
  mem := if AxiMaster.bFire m axi then
    fun a => if a = wordOf b.addr then mergeBytes (b.mem a) b.data b.strb else b.mem a else b.mem

/-- The word a beat of a burst reads. -/
def Burst.word (b : Burst) : BitVec 30 := wordOf b.addr + BitVec.ofNat 30 b.beat

/-- The beats of a refill are the words of the line. -/
theorem word_of_line (pc : BitVec 32) :
    wordOf (Ifu.lineAddr pc) + BitVec.ofNat 30 (Ifu.offset pc).toNat = wordOf pc := by
  apply BitVec.eq_of_toNat_eq
  have hlt := pc.isLt
  have hline : (Ifu.lineAddr pc).toNat = pc.toNat / 16 * 16 := by
    unfold Ifu.lineAddr
    rw [BitVec.toNat_append]
    simp only [BitVec.extractLsb'_toNat, BitVec.toNat_ofNat, Nat.zero_mod, Nat.or_zero,
      Nat.shiftLeft_eq, Nat.shiftRight_eq_div_pow]
    omega
  simp only [wordOf, Ifu.offset, BitVec.toNat_add, BitVec.extractLsb'_toNat, BitVec.toNat_ofNat,
    Nat.shiftRight_eq_div_pow, hline]
  omega

namespace Run
variable (r : Run) (mem : BitVec 30 → BitVec 32)

/-- The memory at the start of cycle `n`. -/
def backing : Nat → Backing
  | 0 => ⟨0#32, 0#32, 0#4, mem⟩
  | n + 1 => (backing n).next (r.state n).axi (r.axi n)

/-- A slave backed by a memory with the initial contents `mem`. -/
structure MemoryBacked : Prop where
  conforming : r.Conforming
  read : ∀ n, r.rFire n = true → (r.axi n).rresp = 0b00#2 ∧
    (r.axi n).rdata = (r.backing mem n).mem (r.burst n).word
  write : ∀ n, r.bFire n = true → (r.axi n).bresp = 0b00#2

/-- A write of the word `w` takes effect in cycle `n`. -/
def Writes (n : Nat) (w : BitVec 30) : Prop :=
  r.bFire n = true ∧ wordOf (r.backing mem n).addr = w

variable {r mem}

theorem backing_succ (n : Nat) :
    r.backing mem (n + 1) = (r.backing mem n).next (r.state n).axi (r.axi n) := rfl

theorem backing_write {n : Nat} {w : BitVec 30} (hw : r.Writes mem n w) :
    (r.backing mem (n + 1)).mem w =
      mergeBytes ((r.backing mem n).mem w) (r.backing mem n).data (r.backing mem n).strb := by
  obtain ⟨hb, rfl⟩ := hw
  have hb' : AxiMaster.bFire (r.state n).axi (r.axi n) = true := hb
  simp [backing_succ, Backing.next, hb']

theorem backing_keep {n : Nat} {w : BitVec 30} (hw : ¬ r.Writes mem n w) :
    (r.backing mem (n + 1)).mem w = (r.backing mem n).mem w := by
  rw [backing_succ, Backing.next]
  by_cases hb : AxiMaster.bFire (r.state n).axi (r.axi n) = true
  · have hne : w ≠ wordOf (r.backing mem n).addr := fun he => hw ⟨hb, he.symm⟩
    simp [hb, hne]
  · simp [hb]

theorem MemoryBacked.okay (hm : r.MemoryBacked mem) : r.Okay := fun n hf => (hm.read n hf).1

theorem MemoryBacked.no_inst_error (hm : r.MemoryBacked mem) (n : Nat) :
    ifuInstError (r.state n) (r.input n) = false := by
  cases hl : Ifu.refillLast (r.state n).ifu (ifuPort (r.state n) (r.input n)) with
  | false => simp [ifuInstError, Ifu.instError, hl]
  | true =>
    have hf := hl
    simp only [Ifu.refillLast, Bool.and_eq_true] at hf
    simp [ifuInstError, Ifu.instError, Ifu.refillError, hm.okay.refillErrorQ hm.conforming n,
      hm.okay.bus_error hm.conforming hf.1]

theorem MemoryBacked.word_of_returned (hm : r.MemoryBacked mem) {m : Nat} {pc v : BitVec 32}
    (hr : r.Returned m (Ifu.lineAddr pc) (Ifu.offset pc) v) :
    (r.backing mem m).mem (wordOf pc) = v := by
  obtain ⟨hf, _, hv, ha, _, hb⟩ := hr
  rw [← hv, (hm.read m hf).2, Burst.word, ha, hb, word_of_line]

/-- Freshness after `fence.i`. Every word captured for an address is what memory
held there at some moment after the last `fence.i` retired; so a store that took
effect before it is seen, unless a later store to the word has replaced it. -/
theorem captured_fresh (hm : r.MemoryBacked mem) {n : Nat}
    (hcap : capture (r.state n) (r.input n) = true) :
    (∃ m, r.lastFence n ≤ m ∧ m ≤ n ∧
      (r.backing mem m).mem (wordOf (r.state n).fPc) = ifuInst (r.state n) (r.input n)) ∧
    (∀ t, r.Writes mem t (wordOf (r.state n).fPc) → t < r.lastFence n →
      (∀ u, t < u → u < n → ¬ r.Writes mem u (wordOf (r.state n).fPc)) →
      ifuInst (r.state n) (r.input n) =
        mergeBytes ((r.backing mem t).mem (wordOf (r.state n).fPc)) (r.backing mem t).data
          (r.backing mem t).strb) := by
  have hc := hm.conforming
  have hp := hc.provenance (hm.okay.noStaleOverwrite hc) n
  obtain ⟨m, h1, h2, h3⟩ := hp.captured hc hcap (hm.no_inst_error n)
  have hword := hm.word_of_returned h3
  refine ⟨⟨m, h1, h2, hword⟩, ?_⟩
  intro t hw hlt hno
  have hkeep : (r.backing mem m).mem (wordOf (r.state n).fPc) =
      (r.backing mem (t + 1)).mem (wordOf (r.state n).fPc) := by
    refine Clocked.stays
      (P := fun k => (r.backing mem k).mem (wordOf (r.state n).fPc) =
        (r.backing mem (t + 1)).mem (wordOf (r.state n).fPc))
      (D := fun k => r.Writes mem k (wordOf (r.state n).fPc)) (by omega) rfl ?_ ?_
    · intro k hk1 hk2
      exact hno k hk1 (by omega)
    · intro k hk hd
      rw [backing_keep hd]
      exact hk
  rw [← hword, hkeep, backing_write hw]

section Simulate
variable (mem : BitVec 30 → BitVec 32)

/-- The burst and the memory clocked with the core. -/
def viewNext (p : Burst × Backing) (m : AxiMaster.State) (axi : AxiIn) : Burst × Backing :=
  (p.1.next m axi, p.2.next m axi)

theorem react_view (drive : Burst × Backing → AxiIn) (n : Nat) :
    ((react (⟨0#32, 0, 0⟩, ⟨0#32, 0#32, 0#4, mem⟩) viewNext drive).burst n,
      (react (⟨0#32, 0, 0⟩, ⟨0#32, 0#32, 0#4, mem⟩) viewNext drive).backing mem n) =
      (reactTrace (⟨0#32, 0, 0⟩, ⟨0#32, 0#32, 0#4, mem⟩) viewNext drive n).2 :=
  react_slave _ _ _ (fun n =>
    ((react (⟨0#32, 0, 0⟩, ⟨0#32, 0#32, 0#4, mem⟩) viewNext drive).burst n,
      (react (⟨0#32, 0, 0⟩, ⟨0#32, 0#32, 0#4, mem⟩) viewNext drive).backing mem n))
    rfl (fun _ => rfl) n

/-- A slave backed by memory that accepts and answers everything at once. -/
def memoryRun : Run :=
  react (⟨0#32, 0, 0⟩, ⟨0#32, 0#32, 0#4, mem⟩) viewNext
    (fun p => eager (p.2.mem p.1.word) (p.1.beat = p.1.len))

theorem memoryRun_axi (n : Nat) : (memoryRun mem).axi n =
    eager (((memoryRun mem).backing mem n).mem ((memoryRun mem).burst n).word)
      (((memoryRun mem).burst n).beat = ((memoryRun mem).burst n).len) := by
  have hview := react_view mem (fun p => eager (p.2.mem p.1.word) (p.1.beat = p.1.len)) n
  have hb := congrArg Prod.fst hview
  have hm := congrArg Prod.snd hview
  simp only at hb hm
  unfold memoryRun
  rw [hb, hm]
  rfl

theorem memoryRun_backed : (memoryRun mem).MemoryBacked mem where
  conforming := by
    intro n _
    rw [memoryRun_axi]
    simp [eager]
  read := by
    intro n _
    rw [memoryRun_axi]
    exact ⟨rfl, rfl⟩
  write := by
    intro n _
    rw [memoryRun_axi]
    rfl

end Simulate

/-- The word after the `fence.i` of `patchProgram`. -/
def patchWord : BitVec 30 := 0x08000003#30

/-- `lui x1, 0x20000; sw x1, 12(x1); fence.i` at the reset vector, then `nop`s: the
store replaces the word after the `fence.i`. -/
def patchProgram (w : BitVec 30) : BitVec 32 :=
  if w = 0x08000000#30 then 0x200000b7#32
  else if w = 0x08000001#30 then 0x0010a623#32
  else if w = 0x08000002#30 then 0x0000100f#32
  else 0x00000013#32

/-- The store takes effect in cycle 13 and the `fence.i` retires in cycle 15. The
word was captured as a `nop` in cycle 14; in cycle 22 it is the stored one. -/
theorem captured_fresh_patch :
    (memoryRun patchProgram).Writes patchProgram 13 patchWord ∧
      (memoryRun patchProgram).lastFence 22 = 16 ∧
      ifuInst ((memoryRun patchProgram).state 14) ((memoryRun patchProgram).input 14) =
        0x00000013#32 ∧
      ifuInst ((memoryRun patchProgram).state 22) ((memoryRun patchProgram).input 22) =
        0x20000000#32 := by
  have hw : (memoryRun patchProgram).Writes patchProgram 13 patchWord := by
    constructor <;> decide +kernel
  have hf : (memoryRun patchProgram).lastFence 22 = 16 := by decide +kernel
  have hpc : wordOf ((memoryRun patchProgram).state 22).fPc = patchWord := by decide +kernel
  have hquiet : ∀ u < 22, 13 < u → ¬ (memoryRun patchProgram).bFire u = true := by
    decide +kernel
  have hfresh := (captured_fresh (memoryRun_backed patchProgram) (n := 22)
    (by decide +kernel)).2
  rw [hpc, hf] at hfresh
  refine ⟨hw, hf, by decide +kernel, ?_⟩
  rw [hfresh 13 hw (by decide) ?_]
  · decide +kernel
  · intro u h1 h2 hu
    exact hquiet u h2 h1 hu.1

end Run

end Npc.Core
