import AiOsoc.Machine
import AiOsoc.Npc.Memory
import AiOsoc.Npc.DataCommit
import AiOsoc.Npc.Safety
import AiOsoc.Npc.Transfer
import AiOsoc.Npc.Progress
import AiOsoc.Sim.Memory

/-!
# The core as a machine

The core against a slave that is backed by a memory. The retirements of a run,
with the words they were fetched as and the time they were made at, are an
execution of the machine of the instruction table, on the bytes of that memory.
-/

namespace Npc.Core

set_option autoImplicit false

open Clocked Rv32e ByteMemory

/-! ## The bytes of a memory of words -/

def bytesOf (mem : BitVec 30 → BitVec 32) : ByteMemory.Memory := fun a =>
  laneByte (mem (wordOf a)) a

theorem wordOf_toNat (a : BitVec 32) : (wordOf a).toNat = a.toNat / 4 := by
  have hlt := a.isLt
  simp only [wordOf, BitVec.extractLsb'_toNat, Nat.shiftRight_eq_div_pow]
  omega

theorem wordOf_eq_iff {a b : BitVec 32} : wordOf a = wordOf b ↔ a.toNat / 4 = b.toNat / 4 := by
  rw [← BitVec.toNat_inj, wordOf_toNat, wordOf_toNat]

theorem wordAt_bytesOf (mem : BitVec 30 → BitVec 32) (w : BitVec 30) :
    wordAt (bytesOf mem) w = mem w := by
  have hbase : (w ++ 0#2).toNat = 4 * w.toNat := by
    rw [BitVec.toNat_append]
    simp only [BitVec.toNat_ofNat, Nat.zero_mod, Nat.or_zero, Nat.shiftLeft_eq]
    omega
  have hlt := w.isLt
  have hsame : ∀ k < 4, wordOf ((w ++ 0#2) + BitVec.ofNat 32 k) = w := by
    intro k hk
    apply BitVec.eq_of_toNat_eq
    rw [wordOf_toNat, BitVec.toNat_add, hbase, BitVec.toNat_ofNat]
    omega
  have hal : (w ++ 0#2).toNat % 4 = 0 := by
    rw [hbase]
    omega
  have hword := lanes_word (mem w) hal
  have h0 : wordOf (w ++ 0#2) = w := by
    have := hsame 0 (by decide)
    rwa [BitVec.add_zero] at this
  rw [wordAt, loadWord, bytesOf, bytesOf, bytesOf, bytesOf, hsame 1 (by decide),
    hsame 2 (by decide), hsame 3 (by decide), h0]
  exact hword.symm

/-- The lanes of four bytes put together as `mergeBytes` does. -/
theorem append_lane (b0 b1 b2 b3 : BitVec 8) {k : Nat} (hk : k < 4) :
    (b3 ++ b2 ++ b1 ++ b0).extractLsb' (8 * k) 8 = [b0, b1, b2, b3].get ⟨k, hk⟩ := by
  apply BitVec.eq_of_getLsbD_eq
  intro i hi
  obtain rfl | rfl | rfl | rfl : k = 0 ∨ k = 1 ∨ k = 2 ∨ k = 3 := by omega
  all_goals
    simp only [BitVec.getLsbD_extractLsb', BitVec.getLsbD_append, List.get]
    grind

theorem mergeBytes_lane (old new : BitVec 32) (strb : BitVec 4) {k : Nat} (hk : k < 4) :
    (mergeBytes old new strb).extractLsb' (8 * k) 8 =
      if strb.getLsbD k then new.extractLsb' (8 * k) 8 else old.extractLsb' (8 * k) 8 := by
  rw [mergeBytes, append_lane _ _ _ _ hk]
  obtain rfl | rfl | rfl | rfl : k = 0 ∨ k = 1 ∨ k = 2 ∨ k = 3 := by omega
  all_goals rfl

/-- Writing the strobed lanes of a word. -/
theorem writeBytes_lanes (m : ByteMemory.Memory) (base data : BitVec 32) (strb : BitVec 4)
    (hb : base.toNat % 4 = 0) (a : BitVec 32) :
    writeBytes m (((List.range 4).filter fun k => strb.getLsbD k).map fun k =>
      (base + BitVec.ofNat 32 k, data.extractLsb' (8 * k) 8)) a =
    if wordOf a = wordOf base ∧ strb.getLsbD (a.toNat % 4) = true then laneByte data a
    else m a := by
  have hlt := base.isLt
  have ha := a.isLt
  have hturn : ∀ n ≤ 4, writeBytes m (((List.range n).filter fun k => strb.getLsbD k).map fun k =>
      (base + BitVec.ofNat 32 k, data.extractLsb' (8 * k) 8)) a =
      if wordOf a = wordOf base ∧ a.toNat % 4 < n ∧ strb.getLsbD (a.toNat % 4) = true then
        laneByte data a else m a := by
    intro n
    induction n with
    | zero =>
      intro _
      rw [if_neg (by omega)]
      rfl
    | succ n ih =>
      intro hn
      have ih := ih (by omega)
      have hat : a = base + BitVec.ofNat 32 n ↔ wordOf a = wordOf base ∧ a.toNat % 4 = n := by
        rw [wordOf_eq_iff, ← BitVec.toNat_inj, BitVec.toNat_add, BitVec.toNat_ofNat]
        omega
      rw [List.range_succ, List.filter_append, List.map_append]
      cases hs : strb.getLsbD n with
      | false =>
        simp only [List.filter_cons, hs, Bool.false_eq_true, if_false, List.filter_nil,
          List.map_nil, List.append_nil, ih]
        grind
      | true =>
        simp only [List.filter_cons, hs, if_true, List.filter_nil, List.map_cons, List.map_nil,
          writeBytes, List.foldl_append, List.foldl_cons, List.foldl_nil]
        by_cases he : a = base + BitVec.ofNat 32 n
        · obtain ⟨hw, hk⟩ := hat.mp he
          rw [if_pos ⟨hw, by omega, by rw [hk]; exact hs⟩, ← he, Function.update_self, laneByte, hk]
        · rw [Function.update_of_ne he]
          rw [writeBytes] at ih
          rw [ih]
          grind
  have hfour := hturn 4 (Nat.le_refl 4)
  have hmod : a.toNat % 4 < 4 := Nat.mod_lt _ (by decide)
  simpa [hmod] using hfour

/-- The write of the slave, on bytes. -/
theorem bytesOf_merge (mem : BitVec 30 → BitVec 32) (base data : BitVec 32) (strb : BitVec 4)
    (hb : base.toNat % 4 = 0) :
    bytesOf (fun w => if w = wordOf base then mergeBytes (mem w) data strb else mem w) =
      writeBytes (bytesOf mem) (((List.range 4).filter fun k => strb.getLsbD k).map fun k =>
        (base + BitVec.ofNat 32 k, data.extractLsb' (8 * k) 8)) := by
  funext a
  have hmod : a.toNat % 4 < 4 := Nat.mod_lt _ (by decide)
  rw [writeBytes_lanes _ _ _ _ hb, bytesOf, bytesOf]
  by_cases hw : wordOf a = wordOf base
  · simp only [hw, if_true, laneByte, mergeBytes_lane _ _ _ hmod, true_and]
  · simp [hw]

theorem wordOf_alignedAddr (a : BitVec 32) : wordOf (Lsu.alignedAddr a) = wordOf a := by
  rw [wordOf_eq_iff, alignedAddr_toNat]
  omega

theorem wordOf_busAddr (a : BitVec 32) : wordOf (Lsu.busAddr a) = wordOf a := by
  rw [wordOf_eq_iff, busAddr_word]

/-! ## The machine of a run -/

/-- The sixteen registers of RV32E. -/
def sixteen (regs : RegFile) (x : Rv32e.Reg) : BitVec 32 :=
  if x < 16#5 then regsOf regs x else 0#32

/-- The CLINT answers for its window; its registers are words. -/
def clint : Platform where
  device a := a.extractLsb' 16 16 == 0x0200#16
  shows time a := laneByte (Clint.rdata time (Lsu.alignedAddr a)) a

namespace Run
variable (r : Run) (mem : BitVec 30 → BitVec 32)

/-- What the core and its memory hold at the start of cycle `n`. -/
def machine (n : Nat) : Machine where
  x := sixteen (r.state n).regs
  pc := debugPc (r.state n)
  csrs := csrsOf (r.state n).csr
  mem := bytesOf (r.backing mem n).mem
  visible := fun w => {v | ∃ m, r.lastFence n ≤ m ∧ m ≤ n ∧ (r.backing mem m).mem w = v}
  halted := (r.state n).halted

/-- The instruction retired in cycle `n`, if there is one. -/
def fetches (n : Nat) : List Fetch :=
  if wRetireReady (r.state n) (r.input n) then [⟨(r.state n).xw.inst, (r.state n).mtime⟩] else []

variable {r mem}

/-! ### The memory between retirements -/

/-- The response to a write is for the store in W, which retires on it. -/
theorem Conforming.bFire_retires (hc : r.Conforming) {n : Nat} (hb : r.bFire n = true) :
    LsuOwns (r.state n) (r.input n) ∧ lsuWen (r.state n) (r.input n) = true ∧
      wRetireReady (r.state n) (r.input n) = true := by
  simp only [bFire, AxiMaster.bFire, AxiMaster.bready, Bool.and_eq_true, decide_eq_true_eq] at hb
  obtain ⟨hp, hv⟩ := hb
  cases hc.ownership n with
  | idle hi _ =>
    rw [hp] at hi
    exact absurd hi (by decide)
  | ifu ho =>
    rcases ho.phase with hq | hq
    · rw [hp] at hq
      exact absurd hq.1 (by decide)
    · rw [hp] at hq
      exact absurd hq (by decide)
  | lsu ho _ =>
    have hw : lsuWen (r.state n) (r.input n) = true := by
      by_contra hw
      have hq := ho.phase
      rw [if_neg hw, hp] at hq
      rcases hq with hq | hq <;> exact absurd hq (by decide)
    have hresp : (axiResp (r.state n) (r.input n)).ready = true := by
      simp [axiResp, AxiMaster.resp, AxiMaster.writeDone, hp, input, hv]
    exact ⟨ho, hw, (ho.answered (r.occupancy n) rfl hresp).1⟩

theorem mem_of_no_bFire {n : Nat} (hb : r.bFire n = false) :
    (r.backing mem (n + 1)).mem = (r.backing mem n).mem := by
  have hb' : AxiMaster.bFire (r.state n).axi (r.axi n) = false := hb
  simp [backing_succ, Backing.next, hb']

theorem machine_of_not_retire (hc : r.Conforming) {n : Nat}
    (hn : wRetireReady (r.state n) (r.input n) = false) :
    r.machine mem (n + 1) = r.machine mem n := by
  have harch := arch_of_not_retire (r.occupancy n) (i := r.input n) rfl hn
  rw [← r.state_succ] at harch
  have hb : r.bFire n = false := by
    by_contra hb
    rw [(hc.bFire_retires (by simpa using hb)).2.2] at hn
    exact absurd hn (by decide)
  have hfence : r.lastFence (n + 1) = r.lastFence n := by
    simp [lastFence, ifuInvalidate, hn]
  have hle := r.lastFence_le n
  unfold machine
  congr 1
  · congr 1
    · exact congrArg (fun a => sixteen a.regs) harch
    · exact congrArg Arch.pc harch
    · exact congrArg (fun a => csrsOf a.csr) harch
    · rw [mem_of_no_bFire hb]
  · funext w
    apply Set.ext
    intro v
    simp only [Set.mem_ofPred_eq, hfence]
    constructor
    · rintro ⟨m, h1, h2, h3⟩
      rcases Nat.le_succ_iff.mp h2 with h2 | rfl
      · exact ⟨m, h1, h2, h3⟩
      · rw [mem_of_no_bFire hb] at h3
        exact ⟨n, hle, Nat.le_refl n, h3⟩
    · rintro ⟨m, h1, h2, h3⟩
      exact ⟨m, h1, Nat.le_succ_of_le h2, h3⟩
  · exact congrArg Arch.halted harch

/-! ### The write that the slave has accepted -/

/-- What the slave has taken of the write in progress is what the master latched. -/
structure WriteTracked (r : Run) (mem : BitVec 30 → BitVec 32) (n : Nat) : Prop where
  addr : (r.state n).axi.awDone = true ∨ (r.state n).axi.state = .writeResp →
    (r.backing mem n).addr = (r.state n).axi.addrQ
  data : (r.state n).axi.wDone = true ∨ (r.state n).axi.state = .writeResp →
    (r.backing mem n).data = (r.state n).axi.wdataQ ∧
      (r.backing mem n).strb = (r.state n).axi.wmaskQ

/-- A write begins with nothing taken. -/
theorem WriteTracked.of_idle {n : Nat} (hp : (r.state n).axi.state = .idle)
    (hs : (r.state (n + 1)).axi.state = .writeReq ∨ (r.state (n + 1)).axi.state = .writeResp) :
    r.WriteTracked mem (n + 1) := by
  have hax := r.state_axi_succ n
  have hreq : (axiReq (r.state n) (r.input n)).valid = true := by
    by_contra hv
    rw [hax] at hs
    simp [AxiMaster.next, hp, AxiMaster.startRead, AxiMaster.startWrite, hv] at hs
  obtain ⟨hst, haw, hw⟩ := AxiMaster.next_start _ (r.axi n) hp hreq
  rw [← hax] at hst haw hw
  have hne : (r.state (n + 1)).axi.state ≠ .writeResp := by
    rw [hst]
    split <;> decide
  constructor
  · rintro (h | h)
    · rw [haw] at h
      exact absurd h (by decide)
    · exact absurd h hne
  · rintro (h | h)
    · rw [hw] at h
      exact absurd h (by decide)
    · exact absurd h hne

/-- Each channel that the slave accepts is copied, the others stay as they were. -/
theorem WriteTracked.writeReq {n : Nat} (h : r.WriteTracked mem n)
    (hp : (r.state n).axi.state = .writeReq) : r.WriteTracked mem (n + 1) := by
  have hax := r.state_axi_succ n
  obtain ⟨hawd, hwd, hst⟩ := AxiMaster.next_writeReq (axiReq (r.state n) (r.input n)) (r.axi n) hp
  have hquiet : (AxiMaster.resp (r.state n).axi (r.axi n)).ready = false := quiet_writeReq hp
  obtain ⟨haddr, _, _, hdata, hmask⟩ := AxiMaster.next_keeps (axiReq (r.state n) (r.input n))
    (by rw [hp]; decide) hquiet
  rw [← hax] at hawd hwd hst haddr hdata hmask
  have hresp : (r.state (n + 1)).axi.state = .writeResp →
      (r.state (n + 1)).axi.awDone = true ∧ (r.state (n + 1)).axi.wDone = true := by
    intro he
    rw [hst] at he
    split at he
    · rename_i hboth
      rw [hawd, hwd]
      simpa using hboth
    · cases he
  constructor
  · intro hor
    have hdone : (r.state (n + 1)).axi.awDone = true := hor.elim id (fun he => (hresp he).1)
    rw [hawd] at hdone
    rw [haddr, backing_succ]
    cases hd : (r.state n).axi.awDone with
    | true => simp [Backing.next, AxiMaster.awFire, AxiMaster.awvalid, hd, h.addr (Or.inl hd)]
    | false =>
      have hrd : (r.axi n).awready = true := by simpa [hd] using hdone
      simp [Backing.next, AxiMaster.awFire, AxiMaster.awvalid, hp, hd, hrd, AxiMaster.awaddr]
  · intro hor
    have hdone : (r.state (n + 1)).axi.wDone = true := hor.elim id (fun he => (hresp he).2)
    rw [hwd] at hdone
    rw [hdata, hmask, backing_succ]
    cases hd : (r.state n).axi.wDone with
    | true => simp [Backing.next, AxiMaster.wFire, AxiMaster.wvalid, hd, h.data (Or.inl hd)]
    | false =>
      have hrd : (r.axi n).wready = true := by simpa [hd] using hdone
      simp [Backing.next, AxiMaster.wFire, AxiMaster.wvalid, hp, hd, hrd, AxiMaster.wdata,
        AxiMaster.wstrb]

theorem WriteTracked.writeResp {n : Nat} (h : r.WriteTracked mem n)
    (hp : (r.state n).axi.state = .writeResp)
    (hs : (r.state (n + 1)).axi.state = .writeReq ∨ (r.state (n + 1)).axi.state = .writeResp) :
    r.WriteTracked mem (n + 1) := by
  have hax := r.state_axi_succ n
  have hv : (r.axi n).bvalid = false := by
    by_contra hv
    rw [hax] at hs
    simp [AxiMaster.next, hp, hv] at hs
  have hsame : (r.state (n + 1)).axi = (r.state n).axi := by
    rw [hax]
    simp [AxiMaster.next, hp, hv]
  have haw : AxiMaster.awFire (r.state n).axi (r.axi n) = false := by
    simp [AxiMaster.awFire, AxiMaster.awvalid, hp]
  have hw : AxiMaster.wFire (r.state n).axi (r.axi n) = false := by
    simp [AxiMaster.wFire, AxiMaster.wvalid, hp]
  constructor
  · intro _
    rw [hsame, backing_succ]
    simp [Backing.next, haw, h.addr (Or.inr hp)]
  · intro _
    rw [hsame, backing_succ]
    simp [Backing.next, hw, h.data (Or.inr hp)]

theorem write_tracked (n : Nat)
    (hs : (r.state n).axi.state = .writeReq ∨ (r.state n).axi.state = .writeResp) :
    r.WriteTracked mem n := by
  induction n with
  | zero => rcases hs with hs | hs <;> exact absurd hs (by intro hf; cases hf)
  | succ n ih =>
    have hax := r.state_axi_succ n
    cases hp : (r.state n).axi.state with
    | idle => exact .of_idle hp hs
    | readAddr =>
      rw [hax] at hs
      cases ha : (r.axi n).arready <;> simp [AxiMaster.next, hp, ha] at hs
    | readData =>
      rw [hax] at hs
      cases hf : AxiMaster.readFire (r.state n).axi (r.axi n) <;>
        cases hl : AxiMaster.readLast (r.state n).axi (r.axi n) <;>
        simp [AxiMaster.next, hp, hf, hl] at hs
    | writeReq => exact (ih (Or.inl hp)).writeReq hp
    | writeResp => exact (ih (Or.inr hp)).writeResp hp hs

/-! ### The words in the pipeline -/

/-- A word fetched without an error, which its address has held since the last
`fence.i`. -/
structure Held (r : Run) (mem : BitVec 30 → BitVec 32) (n : Nat) (f : FD) : Prop where
  ok : f.instError = false
  held : f.inst ∈ (r.machine mem n).visible (wordOf f.pc)

/-- A `fence.i` that retires empties the pipeline. -/
theorem words_of_fence {n : Nat} (hi : ifuInvalidate (r.state n) (r.input n) = true) :
    words (r.state (n + 1)) = [] := by
  have h := r.occupancy n
  simp only [ifuInvalidate, Bool.and_eq_true] at hi
  obtain ⟨⟨hret, hcomp⟩, hfi⟩ := hi
  obtain ⟨_, _, hx, hm⟩ := wRetireReady_iff.mp hret
  have hw : wRedirect (r.state n) (r.input n) = true := by
    have hcomp' : wCompleteInst (r.state n).xwValid (r.state n).xw (r.state n).csr.mtvec
        (lsuRaw (r.state n) (r.input n)) = true := hcomp
    simp [wRedirect, hret, wTakes, hcomp', hfi]
  have hred : redirect (r.state n) (r.input n) = true := by simp [redirect, hw]
  have hcap : capture (r.state n) (r.input n) = false := by simp [capture, hred]
  have hd := h.dx_empty_of_xw hx
  have hr : (r.input n).reset = false := rfl
  rw [r.state_succ]
  simp [words, h.next_xwValid hr, h.next_dxValid, h.next_fdValid, hd, hm, hw, hred, hcap]

theorem Held.next {n : Nat} {f : FD} (hf : r.Held mem n f)
    (hi : ifuInvalidate (r.state n) (r.input n) = false) : r.Held mem (n + 1) f := by
  obtain ⟨hok, m, h1, h2, h3⟩ := hf
  refine ⟨hok, m, ?_, Nat.le_succ_of_le h2, h3⟩
  simpa [lastFence, hi] using h1

theorem MemoryBacked.captured_held (hm : r.MemoryBacked mem) {n : Nat}
    (hcap : capture (r.state n) (r.input n) = true) :
    r.Held mem n ⟨(r.state n).fPc, ifuInst (r.state n) (r.input n),
      ifuInstError (r.state n) (r.input n)⟩ := by
  have hc := hm.conforming
  have hp := hc.provenance (hm.okay.noStaleOverwrite hc) n
  obtain ⟨m, h1, h2, h3⟩ := hp.captured hc hcap (hm.no_inst_error n)
  exact ⟨hm.no_inst_error n, m, h1, h2, hm.word_of_returned h3⟩

theorem MemoryBacked.words_held (hm : r.MemoryBacked mem) (n : Nat) :
    ∀ f ∈ words (r.state n), r.Held mem n f := by
  induction n with
  | zero =>
    intro f hf
    exact absurd hf (List.not_mem_nil)
  | succ n ih =>
    intro f hf
    cases hi : ifuInvalidate (r.state n) (r.input n) with
    | true =>
      rw [words_of_fence hi] at hf
      exact absurd hf (List.not_mem_nil)
    | false =>
      have hsub := words_clock (r.occupancy n) (i := r.input n) rfl
      rw [← r.state_succ] at hsub
      have hmem := hsub.subset (List.mem_append_right _ hf)
      rcases List.mem_append.mp hmem with hold | hnew
      · exact (ih f hold).next hi
      · split at hnew
        · rename_i hcap
          obtain rfl := List.mem_singleton.mp hnew
          exact (hm.captured_held hcap).next hi
        · exact absurd hnew (List.not_mem_nil)

end Run

/-! ## One retirement -/

theorem fenceI_opcode {inst : BitVec 32} (hs : Idu.sysCmd inst = .fenceI) :
    Idu.opcode inst = 0b0001111#7 ∧ Idu.funct3 inst = 0b001#3 := by
  have hf : Idu.isFenceI inst = true := by
    unfold Idu.sysCmd at hs
    repeat' split at hs
    all_goals first | assumption | cases hs
  simpa only [Idu.isFenceI, Idu.isFenceOp, Bool.and_eq_true, beq_iff_eq] using hf

/-- `fence.i` in the table and in the decoder. -/
theorem fenceI_iff (inst : BitVec 32) :
    Rv32e.decode inst = some .fenceI ↔ Idu.sysCmd inst = .fenceI := by
  constructor
  · intro hd
    cases Rv32e.decoded_of_decodeAny (Rv32e.decodeAny_of_decode hd) with
    | fenceI h h3 =>
      have ho : Idu.opcode inst = 0b0001111#7 := h
      have hf : Idu.funct3 inst = 0b001#3 := h3
      rw [sysCmd_none inst (by rw [ho]; decide)]
      simp [Idu.isFence, Idu.isFenceI, Idu.isFenceOp, ho, hf]
    | opImm h hc =>
      exfalso
      revert hc
      unfold Rv32e.decodeOpImm
      repeat' apply Rv32e.ite_elim
      all_goals rintro ⟨⟩
    | system h hc =>
      exfalso
      revert hc
      unfold Rv32e.decodeSystem
      refine Rv32e.ite_elim ?_ ?_
      · repeat' apply Rv32e.ite_elim
        all_goals rintro ⟨⟩
      · intro hd
        obtain ⟨op, -, hd⟩ := Option.bind_eq_some_iff.mp hd
        revert hd
        repeat' apply Rv32e.ite_elim
        all_goals rintro ⟨⟩
  · intro hs
    have ho : Rv32e.opcode inst = 0b0001111#7 := (fenceI_opcode hs).1
    have h3 : Rv32e.funct3 inst = 0b001#3 := (fenceI_opcode hs).2
    have hany : Rv32e.decodeAny inst = some .fenceI := by simp [Rv32e.decodeAny, ho, h3]
    rw [Rv32e.decode, hany]
    rfl

theorem Retiring.fenceI_completes {s : State} {i : Input} {pc inst : BitVec 32}
    (h : Retiring s i pc inst) (hs : Idu.sysCmd inst = .fenceI) :
    wCompleteInstNow s i = true := by
  have he : (⟨pc, inst, false⟩ : FD).instError = false := rfl
  have hl := decodeLegal_of_decode ((fenceI_iff inst).mpr hs)
  have hno : wTrapRequest true s.xw s.csr.mtvec (lsuRaw s i) = false := by
    by_contra ht
    have htrap := congrArg Effect.trap h.effect_eq
    rw [fdEffect_fence _ _ _ _ he hl (fenceI_opcode hs).1] at htrap
    simp [retireEffect, effect, proceed, ht] at htrap
  have hno' := hno
  simp only [wTrapRequest, wBaseTrapRequest, Bool.or_eq_false_iff, Bool.not_eq_false'] at hno'
  obtain ⟨⟨⟨⟨⟨⟨h1, h2⟩, h3⟩, h4⟩, h5⟩, h6⟩, h7⟩ := hno'
  simp [wCompleteInstNow, wCompleteInst, wCanCompleteNoMemFault, wBaseTrapRequest, h.valid, h1, h2,
    h3, h4, h5, h6, h7]

/-- An effect with an access is that of a load or store that W performs. -/
theorem access_performed {s : State} {i : Input} {a : Access} (hret : wRetireReady s i = true)
    (ha : (retireEffect s i).access = some a) :
    lsuRawValid s i = true ∧ lsuWen s i = a.write ∧ s.xw.memWen = a.write ∧
      s.xw.memSize = a.size ∧ s.xw.lsuAddr = a.addr ∧
      (a.write = true → s.xw.rs2Data = a.wdata) := by
  obtain ⟨hr, hh, hx, _⟩ := wRetireReady_iff.mp hret
  simp only [retireEffect, effect] at ha
  split at ha
  · rename_i hacc
    obtain rfl := Option.some.inj ha
    simp only [wMemAccess, Bool.and_eq_true] at hacc
    obtain ⟨hcan, hmem⟩ := hacc
    refine ⟨?_, ?_, rfl, rfl, rfl, ?_⟩
    · cases hren : s.xw.memRen <;> cases hwen : s.xw.memWen <;>
        simp [hren, hwen] at hmem <;>
        simp [lsuRawValid, lsuRen, lsuWen, wLsuWen, hr, hh, hx, hcan, hren, hwen]
    · simp [lsuWen, wLsuWen, hr, hh, hx, hcan]
    · intro hw
      have hw' : s.xw.memWen = true := hw
      simp [hw']
  · cases ha

/-- Who answers the access in W. -/
theorem clint_device {s : State} {i : Input} (hv : lsuRawValid s i = true) :
    clint.device s.xw.lsuAddr = lsuIsClint s i ∧
      lsuArbValid s i = !clint.device s.xw.lsuAddr := by
  have hdev : clint.device s.xw.lsuAddr = lsuIsClint s i := by
    rw [lsuIsClint, hv, lsuRawAddr, busAddr_high]
    rfl
  refine ⟨hdev, ?_⟩
  rw [lsuArbValid, hv, hdev]
  rfl

namespace Run
variable {r : Run} {mem : BitVec 30 → BitVec 32} {n : Nat}

theorem MemoryBacked.lsu_no_error (hm : r.MemoryBacked mem) (n : Nat) :
    (lsuRaw (r.state n) (r.input n)).error = false := by
  have hread : (AxiMaster.readFire (r.state n).axi (r.axi n) &&
      ((r.state n).axi.readErrorQ || (r.axi n).rresp != 0b00#2)) = false := by
    cases hf : AxiMaster.readFire (r.state n).axi (r.axi n) with
    | false => rfl
    | true => simp [hm.okay.readErrorQ n, (hm.read n hf).1]
  have hwrite : (AxiMaster.writeDone (r.state n).axi (r.axi n) &&
      (r.axi n).bresp != 0b00#2) = false := by
    cases hf : AxiMaster.writeDone (r.state n).axi (r.axi n) with
    | false => rfl
    | true => simp [hm.write n hf]
  unfold lsuRaw
  split
  · rfl
  · simp [lsuArbResp, AxiArbiter.lsuResp, axiResp, AxiMaster.resp, input, hread, hwrite]

theorem Conforming.arb_answered (hc : r.Conforming)
    (hret : wRetireReady (r.state n) (r.input n) = true)
    (hl : lsuArbValid (r.state n) (r.input n) = true) :
    LsuOwns (r.state n) (r.input n) ∧ r.answers n := by
  have hready : r.answers n := by
    rw [answers, ← wMemReadyNow_of_arb hl]
    exact (wRetireReady_iff.mp hret).2.2.2
  cases hc.ownership n with
  | idle hi _ =>
    rw [answers, axiResp, AxiMaster.resp_idle hi] at hready
    exact absurd hready (by decide)
  | ifu ho =>
    rw [ho.not_arb] at hl
    exact absurd hl (by decide)
  | lsu ho _ => exact ⟨ho, hready⟩

/-- A load on the bus gets the word of the memory. -/
theorem MemoryBacked.load_word (hm : r.MemoryBacked mem)
    (hret : wRetireReady (r.state n) (r.input n) = true)
    (hl : lsuArbValid (r.state n) (r.input n) = true)
    (hw : lsuWen (r.state n) (r.input n) = false) :
    (lsuRaw (r.state n) (r.input n)).rdata =
      (r.backing mem n).mem (wordOf (r.state n).xw.lsuAddr) := by
  obtain ⟨ho, hready⟩ := hm.conforming.arb_answered hret hl
  have hp : (r.state n).axi.state = .readData := by
    have hq := ho.phase
    rw [hw, if_neg (by decide)] at hq
    rcases hq with hq | hq
    · exact absurd hready (no_answer_of_readAddr hq)
    · exact hq
  have hv := (answers_of_readData hp).mp hready
  have hf : r.rFire n = true := by simp [rFire, AxiMaster.rFire, AxiMaster.rready, hp, hv]
  have hb := r.burst_tracked n hp
  have hword : (r.burst n).word = wordOf (r.state n).xw.lsuAddr := by
    have haddr : (r.state n).axi.addrQ = Lsu.busAddr (r.state n).xw.lsuAddr := ho.addr
    rw [Burst.word, hb.addr, hb.beat, ho.beat, haddr, wordOf_busAddr]
    exact BitVec.add_zero _
  rw [lsuRaw_of_arb hl, ← hword, ← (hm.read n hf).2]
  simp [lsuArbResp, AxiArbiter.lsuResp, axiResp, AxiMaster.resp, AxiMaster.readFire, hp, input, hv]

/-- A store on the bus retires on its response. -/
theorem Conforming.store_written (hc : r.Conforming)
    (hret : wRetireReady (r.state n) (r.input n) = true)
    (hl : lsuArbValid (r.state n) (r.input n) = true)
    (hw : lsuWen (r.state n) (r.input n) = true) : r.bFire n = true := by
  obtain ⟨ho, hready⟩ := hc.arb_answered hret hl
  have hq := ho.phase
  rw [hw, if_pos rfl] at hq
  rcases hq with hq | hq
  · have hno := quiet_writeReq (r := r) hq
    rw [answers, hno] at hready
    exact absurd hready (by decide)
  · simpa [answers, axiResp, AxiMaster.resp, AxiMaster.readFire, AxiMaster.writeDone, hq, input,
      bFire, AxiMaster.bFire, AxiMaster.bready] using hready

end Run

/-- A word that is no instruction raises the exception of the table. -/
theorem Retiring.illegal {s : State} {i : Input} {pc inst : BitVec 32} (h : Retiring s i pc inst)
    (hpc : pc.toNat % 4 = 0) (hl : decodeLegal inst = false) :
    Rv32e.decode inst = none ∧ (retireEffect s i).toIsa = .raise (csrsOf s.csr) pc none 2#32 := by
  constructor
  · cases hd : Rv32e.decode inst with
    | none => rfl
    | some i =>
      rw [decodeLegal_of_decode hd] at hl
      exact absurd hl (by decide)
  · have he : (⟨pc, inst, false⟩ : FD).instError = false := rfl
    rw [h.effect_eq, fdEffect_illegal _ _ _ _ he hl, raise_toIsa hpc]
    rfl

theorem Access.toIsa_load {a : Access} {width : Rv32e.Width} {addr : BitVec 32}
    (h : a.toIsa = .load width addr) : a.write = false ∧ a.addr = addr := by
  unfold Access.toIsa at h
  split at h
  · cases h
  · rename_i hw
    cases h
    exact ⟨by simpa using hw, rfl⟩

/-- An aligned access stays in its word. -/
theorem wordOf_within {width : Rv32e.Width} {addr : BitVec 32}
    (ha : Rv32e.aligned width addr = true) {k : Nat} (hk : k < width.bytes) :
    wordOf (addr + BitVec.ofNat 32 k) = wordOf addr := by
  have ha' : addr.toNat % width.bytes = 0 := of_decide_eq_true ha
  have hlt := addr.isLt
  rw [wordOf_eq_iff, BitVec.toNat_add, BitVec.toNat_ofNat]
  cases width <;> simp only [Rv32e.Width.bytes] at ha' hk <;> omega

theorem high_of_wordOf {a b : BitVec 32} (h : wordOf a = wordOf b) :
    clint.device a = clint.device b := by
  have hnat : (a.extractLsb' 16 16).toNat = (b.extractLsb' 16 16).toNat := by
    rw [wordOf_eq_iff] at h
    simp only [BitVec.extractLsb'_toNat, Nat.shiftRight_eq_div_pow]
    omega
  simp only [clint, BitVec.eq_of_toNat_eq hnat]

namespace Run
variable {r : Run} {mem : BitVec 30 → BitVec 32} {n : Nat}

theorem retire_pc (hret : wRetireReady (r.state n) (r.input n) = true) :
    debugPc (r.state n) = (r.state n).xw.pc := by
  simp [debugPc, (wRetireReady_iff.mp hret).2.2.1]

/-- The bytes that answer a load are those of the machine. -/
theorem MemoryBacked.load_bytes (hm : r.MemoryBacked mem)
    (hret : wRetireReady (r.state n) (r.input n) = true)
    (hv : lsuRawValid (r.state n) (r.input n) = true)
    (hw : lsuWen (r.state n) (r.input n) = false) {b : BitVec 32}
    (hb : wordOf b = wordOf (r.state n).xw.lsuAddr) :
    laneByte (lsuRaw (r.state n) (r.input n)).rdata b =
      ((r.machine mem n).answer clint ⟨(r.state n).xw.inst, (r.state n).mtime⟩).byte b := by
  have hdev := high_of_wordOf hb
  obtain ⟨hclint, harb⟩ := clint_device hv
  simp only [Machine.answer, hdev]
  cases hd : clint.device (r.state n).xw.lsuAddr with
  | true =>
    have hu : Lsu.isUartMmio (r.state n).xw.lsuAddr = false := by
      have hd' : (r.state n).xw.lsuAddr.extractLsb' 16 16 = 0x0200#16 := eq_of_beq hd
      rw [Lsu.isUartMmio, hd']
      decide
    have haddr : lsuRawAddr (r.state n) = Lsu.alignedAddr b := by
      have hal : Lsu.alignedAddr (r.state n).xw.lsuAddr = Lsu.alignedAddr b :=
        congrArg (fun w : BitVec 30 => w ++ 0#2) hb.symm
      simp [lsuRawAddr, Lsu.busAddr, hu, hal]
    rw [hd] at hclint
    simp only [lsuRaw, ← hclint, if_true, haddr]
    rfl
  | false =>
    rw [hd] at harb
    rw [hm.load_word hret harb hw, ← hb]
    rfl

/-- The instruction in W has the effect that the machine computes. -/
theorem MemoryBacked.retire_effect (hm : r.MemoryBacked mem)
    (hp : AlignedPc (resetVector r.resetPc))
    (hret : wRetireReady (r.state n) (r.input n) = true)
    (hok : (r.state n).xw.instError = false) :
    (retireEffect (r.state n) (r.input n)).toIsa =
      (r.machine mem n).effect clint ⟨(r.state n).xw.inst, (r.state n).mtime⟩ := by
  have h := retiring_of_reachable (r.reachable n) hret hok
  have hx := (wRetireReady_iff.mp hret).2.2.1
  have hpc : (r.state n).xw.pc.toNat % 4 = 0 := (low_eq_zero _).mp ((r.pcsAligned hp n).xw hx)
  cases hl : decodeLegal (r.state n).xw.inst with
  | false =>
    obtain ⟨hdec, heff⟩ := h.illegal hpc hl
    simp only [heff, Machine.effect, hdec, machine, retire_pc hret]
  | true =>
    obtain ⟨i, hdec, himp⟩ := reachable_implements (r.reachable n) (r.state n).regs
      (lsuRaw (r.state n) (r.input n)) hl hpc h.operands_ready
    rw [← h.effect_eq] at himp
    have hregs : ∀ x ∈ i.regs, regsOf (r.state n).regs x = sixteen (r.state n).regs x := by
      intro x hxr
      rw [sixteen, if_pos (Rv32e.decode_regs hdec hxr)]
    rw [himp, Rv32e.exec_congr hregs]
    simp only [Machine.effect, hdec]
    rw [show (r.machine mem n).pc = (r.state n).xw.pc from retire_pc hret]
    refine Rv32e.exec_answer i (hm.lsu_no_error n) ?_
    rintro width unsigned rd rs1 imm rfl ha
    have haddr : regsOf (r.state n).regs rs1 = sixteen (r.state n).regs rs1 :=
      hregs rs1 (by simp [Rv32e.Instr.regs])
    have hacc : (retireEffect (r.state n) (r.input n)).toIsa.access =
        some (.load width (sixteen (r.state n).regs rs1 + imm.signExtend 32)) := by
      rw [himp]
      simp only [Rv32e.exec, Rv32e.memory, haddr, ha, if_true, answerOf, hm.lsu_no_error n,
        Bool.false_eq_true, if_false]
    obtain ⟨a, hra, hta⟩ := Option.map_eq_some_iff.mp hacc
    obtain ⟨hwa, haa⟩ := Access.toIsa_load hta
    obtain ⟨hv, hwen, _, _, hlsu, _⟩ := access_performed hret hra
    apply Sim.loadValue_congr
    intro k hk
    refine hm.load_bytes hret hv (hwen.trans hwa) ?_
    rw [hlsu, haa]
    exact wordOf_within ha hk

/-- The store in W reaches the memory on the edge on which it retires. -/
theorem MemoryBacked.store_bytes (hm : r.MemoryBacked mem) (hb : r.bFire n = true) :
    ∃ a, (retireEffect (r.state n) (r.input n)).access = some a ∧ a.write = true ∧
      clint.device a.addr = false ∧
      bytesOf (r.backing mem (n + 1)).mem = writeBytes (bytesOf (r.backing mem n).mem) a.bytes := by
  obtain ⟨ho, hwen, hret⟩ := hm.conforming.bFire_retires hb
  have hbf : AxiMaster.bFire (r.state n).axi (r.axi n) = true := hb
  have hx := (wRetireReady_iff.mp hret).2.2.1
  have hsome : ∃ a, (retireEffect (r.state n) (r.input n)).access = some a := by
    have hcan : wMemAccess true (r.state n).xw (r.state n).csr.mtvec = true := by
      simp only [lsuWen, wLsuWen, hx, Bool.and_eq_true] at hwen
      simp [wMemAccess, hwen.2.1, hwen.2.2]
    simp [retireEffect, effect, hcan]
  obtain ⟨a, ha⟩ := hsome
  obtain ⟨hv, hwa, _, hsize, haddr, hdata⟩ := access_performed hret ha
  have hw : a.write = true := hwa.symm.trans hwen
  refine ⟨a, ha, hw, ?_, ?_⟩
  · have harb := (clint_device hv).2
    rw [ho.valid, haddr] at harb
    simpa using harb.symm
  · have hp : (r.state n).axi.state = .writeResp := by
      simp only [AxiMaster.bFire, AxiMaster.bready, Bool.and_eq_true, decide_eq_true_eq] at hbf
      exact hbf.1
    have ht : r.WriteTracked mem n := write_tracked n (Or.inr hp)
    have hta : (r.backing mem n).addr = Lsu.busAddr a.addr := by
      rw [ht.addr (Or.inr hp), ho.addr, ← haddr]
      rfl
    have htd : (r.backing mem n).data = Lsu.storeWdata a.addr a.wdata := by
      rw [(ht.data (Or.inr hp)).1, ho.wdata, ← haddr, ← hdata hw]
      rfl
    have htm : (r.backing mem n).strb = Lsu.wmask a.size a.addr := by
      rw [(ht.data (Or.inr hp)).2, ho.wmask, ← haddr, ← hsize]
      rfl
    have hbase : (Lsu.alignedAddr (Lsu.busAddr a.addr)).toNat % 4 = 0 := by
      rw [alignedAddr_toNat]
      omega
    have hmem : (r.backing mem (n + 1)).mem = fun w =>
        if w = wordOf (Lsu.alignedAddr (Lsu.busAddr a.addr)) then
          mergeBytes ((r.backing mem n).mem w) (Lsu.storeWdata a.addr a.wdata)
            (Lsu.wmask a.size a.addr)
        else (r.backing mem n).mem w := by
      rw [backing_succ, wordOf_alignedAddr, ← hta, ← htd, ← htm]
      simp [Backing.next, hbf]
    rw [hmem, bytesOf_merge _ _ _ _ hbase]
    rfl

theorem MemoryBacked.memory_after (hm : r.MemoryBacked mem)
    (hret : wRetireReady (r.state n) (r.input n) = true) :
    bytesOf (r.backing mem (n + 1)).mem = Machine.stored clint (bytesOf (r.backing mem n).mem)
      (retireEffect (r.state n) (r.input n)).toIsa.access := by
  cases hb : r.bFire n with
  | true =>
    obtain ⟨a, ha, hw, hdev, hmem⟩ := hm.store_bytes hb
    simp [hmem, Effect.toIsa, ha, Access.toIsa, hw, Machine.stored, hdev]
  | false =>
    rw [mem_of_no_bFire hb]
    cases ha : (retireEffect (r.state n) (r.input n)).access with
    | none => simp [Effect.toIsa, ha, Machine.stored]
    | some a =>
      cases hw : a.write with
      | false => simp [Effect.toIsa, ha, Access.toIsa, hw, Machine.stored]
      | true =>
        obtain ⟨hv, hwen, _, _, haddr, _⟩ := access_performed hret ha
        have hdev : clint.device a.addr = true := by
          by_contra hd
          have harb := (clint_device hv).2
          rw [haddr, Bool.eq_false_iff.mpr hd] at harb
          rw [hm.conforming.store_written hret harb (hwen.trans hw)] at hb
          exact absurd hb (by decide)
        simp [Effect.toIsa, ha, Access.toIsa, hw, Machine.stored, hdev]

end Run

/-- The register file after a write, for the sixteen registers. -/
theorem sixteen_write (regs : RegFile) {rd : Rv32e.Reg} (v : BitVec 32)
    (h16 : rd.getLsbD 4 = false) (h0 : rd ≠ 0#5) :
    sixteen (applyWrite regs (some (rd, v))) = Function.update (sixteen regs) rd v := by
  have hlow : ∀ x : BitVec 5, x < 16#5 ↔ x.getLsbD 4 = false := by decide
  have hz : rd.extractLsb' 0 4 ≠ 0#4 := by
    intro he
    exact h0 ((reg_eq_of_low h16 (by decide)).mpr he)
  funext x
  by_cases hx : x = rd
  · subst hx
    rw [Function.update_self, sixteen, if_pos ((hlow x).mpr h16), regsOf, applyWrite, rdata_next,
      if_pos ⟨rfl, hz, rfl⟩]
  · rw [Function.update_of_ne hx, sixteen, sixteen]
    by_cases hlt : x < 16#5
    · have hne : x.extractLsb' 0 4 ≠ rd.extractLsb' 0 4 := fun he =>
        hx ((reg_eq_of_low ((hlow x).mp hlt) h16).mpr he)
      rw [if_pos hlt, if_pos hlt, regsOf, applyWrite, rdata_next, if_neg (fun hc => hne hc.2.2)]
      rfl
    · rw [if_neg hlt, if_neg hlt]

namespace Run
variable {r : Run} {mem : BitVec 30 → BitVec 32} {n : Nat}

theorem regs_after (hret : wRetireReady (r.state n) (r.input n) = true) :
    sixteen (r.state (n + 1)).regs =
      match (retireEffect (r.state n) (r.input n)).write with
      | some (rd, v) => Function.update (sixteen (r.state n).regs) rd v
      | none => sixteen (r.state n).regs := by
  have hx := (wRetireReady_iff.mp hret).2.2.1
  rw [r.state_succ, clock_regs_of_retire hret, ← retireEffect]
  cases hw : (retireEffect (r.state n) (r.input n)).write with
  | none => rfl
  | some p =>
    have hwb : wWbWenNow (r.state n) (r.input n) = true := by
      by_contra hn
      simp only [retireEffect, effect] at hw
      rw [wWbWenNow, hx] at hn
      rw [if_neg hn] at hw
      cases hw
    have hrd : commitRd (r.state n) = p.1 := (commit_write hw).1
    obtain ⟨h16, h0⟩ := (r.inFlight n).wb_rd hx hwb
    rw [commitRd] at hrd
    rw [hrd] at h16 h0
    exact sixteen_write _ p.2 h16 h0

/-- The cache is emptied by the `fence.i` of the table and by nothing else. -/
theorem invalidate_iff (hret : wRetireReady (r.state n) (r.input n) = true)
    (hok : (r.state n).xw.instError = false) :
    ifuInvalidate (r.state n) (r.input n) = true ↔
      Rv32e.decode (r.state n).xw.inst = some .fenceI := by
  have h := retiring_of_reachable (r.reachable n) hret hok
  have hfi : (r.state n).xw.isFenceI = decide (Idu.sysCmd (r.state n).xw.inst = .fenceI) :=
    congrArg XW.isFenceI h.executed
  rw [fenceI_iff]
  constructor
  · intro hi
    simp only [ifuInvalidate, Bool.and_eq_true] at hi
    simpa [hfi] using hi.2
  · intro hs
    simp [ifuInvalidate, hret, h.fenceI_completes hs, hfi, hs]

/-- The words that a fetch may return after a retirement. -/
theorem visible_after (hret : wRetireReady (r.state n) (r.input n) = true)
    (hok : (r.state n).xw.instError = false) (w : BitVec 30) :
    (r.machine mem (n + 1)).visible w =
      if Rv32e.decode (r.state n).xw.inst = some .fenceI then {(r.backing mem (n + 1)).mem w}
      else insert ((r.backing mem (n + 1)).mem w) ((r.machine mem n).visible w) := by
  have hle := r.lastFence_le n
  have hiff := invalidate_iff hret hok
  apply Set.ext
  intro v
  split
  · rename_i hd
    have hf : r.lastFence (n + 1) = n + 1 := by simp [lastFence, hiff.mpr hd]
    constructor
    · rintro ⟨m, h1, h2, h3⟩
      obtain rfl : m = n + 1 := by omega
      exact Set.mem_singleton_iff.mpr h3.symm
    · intro hv
      exact ⟨n + 1, by omega, Nat.le_refl _, (Set.mem_singleton_iff.mp hv).symm⟩
  · rename_i hd
    have hf : r.lastFence (n + 1) = r.lastFence n := by
      simp [lastFence, Bool.eq_false_iff.mpr (fun hi => hd (hiff.mp hi))]
    constructor
    · rintro ⟨m, h1, h2, h3⟩
      rcases Nat.le_succ_iff.mp h2 with h2 | rfl
      · exact Set.mem_insert_of_mem _ ⟨m, by omega, h2, h3⟩
      · exact Set.mem_insert_iff.mpr (Or.inl h3.symm)
    · intro hv
      rcases Set.mem_insert_iff.mp hv with rfl | ⟨m, h1, h2, h3⟩
      · exact ⟨n + 1, by omega, Nat.le_refl _, rfl⟩
      · exact ⟨m, by omega, Nat.le_succ_of_le h2, h3⟩

/-- Each retirement is a step of the machine. -/
theorem MemoryBacked.machine_steps (hm : r.MemoryBacked mem)
    (hp : AlignedPc (resetVector r.resetPc))
    (hret : wRetireReady (r.state n) (r.input n) = true) :
    Machine.Steps clint (r.machine mem n) ⟨(r.state n).xw.inst, (r.state n).mtime⟩
      (r.machine mem (n + 1)) := by
  obtain ⟨_, hh, hx, _⟩ := wRetireReady_iff.mp hret
  have hheld : r.Held mem n (r.state n).xw.fd :=
    hm.words_held n _ (by simp [words, hx])
  have hok : (r.state n).xw.instError = false := hheld.ok
  have heff := hm.retire_effect hp hret hok
  have hmem := hm.memory_after hret
  have harch := arch_of_retire (r.occupancy n) (i := r.input n) rfl (r.inFlight n) hret
  rw [← r.state_succ] at harch
  have hmem' : bytesOf (r.backing mem (n + 1)).mem =
      (r.machine mem n).memAfter clint ⟨(r.state n).xw.inst, (r.state n).mtime⟩ := by
    rw [hmem, heff]
    rfl
  refine ⟨hh, ?_, ?_⟩
  · have hw := hheld.held
    rw [show (r.machine mem n).pc = (r.state n).xw.pc from retire_pc hret]
    exact hw
  · unfold Machine.after
    rw [← heff, ← hmem']
    unfold machine
    congr 1
    · congr 1
      · exact regs_after hret
      · exact congrArg Arch.pc harch
      · exact congrArg (fun a => csrsOf a.csr) harch
    · funext w
      rw [wordAt_bytesOf]
      exact visible_after hret hok w
    · exact congrArg Arch.halted harch

theorem MemoryBacked.machine_matched (hm : r.MemoryBacked mem)
    (hp : AlignedPc (resetVector r.resetPc)) (n : Nat) :
    Trace (Machine.Steps clint) (r.machine mem n) (r.fetches n) (r.machine mem (n + 1)) := by
  unfold fetches
  split
  · rename_i hret
    exact .snoc (.nil _) (hm.machine_steps hp hret)
  · rename_i hn
    rw [machine_of_not_retire hm.conforming (by simpa using hn)]
    exact .nil _

end Run

/-- The machine at reset: its fetches see the memory. -/
def bootMachine (resetPc : BitVec 32) (mem : BitVec 30 → BitVec 32) : Machine where
  x := fun _ => 0#32
  pc := resetVector resetPc
  csrs := ⟨0#32, 0#32, 0#32⟩
  mem := bytesOf mem
  visible := fun w => {mem w}
  halted := false

namespace Run
variable {r : Run} {mem : BitVec 30 → BitVec 32} {n : Nat}

theorem machine_zero : r.machine mem 0 = bootMachine r.resetPc mem := by
  unfold machine bootMachine
  congr 1
  · congr 1
    · funext x
      have hreset : RegFile.rdata RegFile.reset (x.extractLsb' 0 4) = 0#32 := by
        unfold RegFile.rdata RegFile.reset
        split <;> rfl
      rw [sixteen]
      split
      · exact hreset
      · rfl
  · funext w
    apply Set.ext
    intro v
    constructor
    · rintro ⟨m, _, h2, h3⟩
      obtain rfl : m = 0 := by omega
      exact Set.mem_singleton_iff.mpr h3.symm
    · intro hv
      exact ⟨0, Nat.le_refl 0, Nat.le_refl 0, (Set.mem_singleton_iff.mp hv).symm⟩

theorem fetches_length (n : Nat) : (log r.fetches n).length = (log r.retired n).length := by
  induction n with
  | zero => rfl
  | succ n ih =>
    simp only [log, List.length_append, ih, fetches, retired]
    split <;> rfl

/-- The core executes the program in its memory, from an aligned reset vector. Its
retirements, with the words fetched and the times, are an execution of the machine
of the instruction table that ends with the registers, the pc, the CSRs and the
bytes of the memory that the core has; and a slave that answers every request lets
it go on for ever, unless it halts. -/
theorem core_executes_program (hm : r.MemoryBacked mem) (hp : AlignedPc (resetVector r.resetPc)) :
    (∀ n, Trace (Machine.Steps clint) (bootMachine r.resetPc mem) (log r.fetches n)
      (r.machine mem n)) ∧
    (r.Responsive → ∀ k, ∃ n, (log r.fetches n).length = k ∨
      ((log r.fetches n).length < k ∧ (r.machine mem n).halted = true)) := by
  constructor
  · intro n
    rw [← machine_zero]
    exact simulation (r.machine mem) (hm.machine_matched hp) n
  · intro hr k
    obtain ⟨n, hn⟩ := count_reached hm.conforming hr k
    refine ⟨n, ?_⟩
    rw [fetches_length]
    exact hn

/-- The store of `patchProgram` changes a word that has been captured already; the
word that retires behind the `fence.i` is the stored one, and halts the core. -/
theorem core_executes_patch :
    Trace (Machine.Steps clint) (bootMachine 0#32 patchProgram)
      [⟨0x200000b7#32, 9#64⟩, ⟨0x0010a623#32, 13#64⟩, ⟨0x0000100f#32, 15#64⟩,
        ⟨0x20000000#32, 25#64⟩]
      ((memoryRun patchProgram).machine patchProgram 26) := by
  have hlog : log (memoryRun patchProgram).fetches 26 =
      [⟨0x200000b7#32, 9#64⟩, ⟨0x0010a623#32, 13#64⟩, ⟨0x0000100f#32, 15#64⟩,
        ⟨0x20000000#32, 25#64⟩] := by
    decide +kernel
  have hrun := (core_executes_program (memoryRun_backed patchProgram) (by decide)).1 26
  rw [hlog] at hrun
  exact hrun

end Run

end Npc.Core
