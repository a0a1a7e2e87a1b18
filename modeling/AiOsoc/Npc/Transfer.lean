import AiOsoc.Npc.Datapath
import AiOsoc.Npc.Ownership
import Mathlib.Algebra.Group.Nat.Defs

/-!
# Byte lanes of a transfer

Which byte lanes an AXI4 transfer designates, and which ones the core uses. The
LSU aligns the address and shifts data and strobes, the master guesses the size
back from mask and address; the two agree on part of the address space only.
-/

namespace Axi

set_option autoImplicit false

/-- The lanes of a transfer of `2 ^ size` bytes at `start` on a bus of `busBytes`
bytes: from the lane of the start address to the last lane of the aligned
container. -/
def lowerLane (busBytes start : Nat) : Nat := start - start / busBytes * busBytes

def upperLane (busBytes start size : Nat) : Nat :=
  start / 2 ^ size * 2 ^ size + (2 ^ size - 1) - start / busBytes * busBytes

def Designated (busBytes start size lane : Nat) : Prop :=
  lowerLane busBytes start ≤ lane ∧ lane ≤ upperLane busBytes start size

instance (busBytes start size lane : Nat) : Decidable (Designated busBytes start size lane) :=
  inferInstanceAs (Decidable (_ ∧ _))

/-- On a four-byte bus, for the sizes of a byte, a halfword and a word. -/
theorem designated_byte (start lane : Nat) : Designated 4 start 0 lane ↔ lane = start % 4 := by
  simp only [Designated, lowerLane, upperLane]
  omega

theorem designated_half {start : Nat} (h : start % 2 = 0) (lane : Nat) :
    Designated 4 start 1 lane ↔ start % 4 ≤ lane ∧ lane ≤ start % 4 + 1 := by
  simp only [Designated, lowerLane, upperLane]
  omega

theorem designated_word {start : Nat} (h : start % 4 = 0) (lane : Nat) :
    Designated 4 start 2 lane ↔ lane ≤ 3 := by
  simp only [Designated, lowerLane, upperLane]
  omega

end Axi

namespace Npc

set_option autoImplicit false

namespace AxiMaster
variable (m : State)

/-- The bytes a write transfer carries: the strobed lanes of the addressed word. -/
def strobedBytes : List (BitVec 32 × BitVec 8) :=
  ((List.range 4).filter fun k => (wstrb m).getLsbD k).map fun k =>
    (Lsu.alignedAddr (awaddr m) + BitVec.ofNat 32 k, (wdata m).extractLsb' (8 * k) 8)

/-- A write transfer that stores `bytes`: all strobed lanes are designated by
address and size, and they are exactly the bytes stored. -/
structure WellFormedWrite (bytes : List (BitVec 32 × BitVec 8)) : Prop where
  designated : ∀ k, (wstrb m).getLsbD k = true →
    Axi.Designated 4 (awaddr m).toNat (awsize m).toNat k
  exact : strobedBytes m = bytes

/-- A read transfer that returns the bytes `addr` to `addr + count - 1`. -/
structure WellFormedRead (addr : BitVec 32) (count : Nat) : Prop where
  word : (araddr m).toNat / 4 = addr.toNat / 4
  designated : ∀ k, addr.toNat % 4 ≤ k → k < addr.toNat % 4 + count →
    Axi.Designated 4 (araddr m).toNat (arsize m).toNat k

end AxiMaster

namespace Core

/-- `AxSIZE` of an access. -/
def axiSize : MemSize → Nat
  | .byte => 0
  | .half => 1
  | .word => 2

/-! ## The lanes of a latched request -/

section Lanes
variable {m : AxiMaster.State} {size : MemSize} {addr : BitVec 32}

theorem uart_busAddr (addr : BitVec 32) :
    Lsu.isUartMmio (Lsu.busAddr addr) = Lsu.isUartMmio addr := by
  unfold Lsu.busAddr
  split
  · rfl
  · unfold Lsu.isUartMmio Lsu.alignedAddr
    congr 1
    apply BitVec.eq_of_getLsbD_eq
    intro i hi
    simp only [BitVec.getLsbD_extractLsb', BitVec.getLsbD_append]
    grind

/-- The lane of the address on the bus: its own on the UART page, lane 0 elsewhere. -/
theorem busAddr_lane (addr : BitVec 32) :
    (Lsu.busAddr addr).toNat % 4 = if Lsu.isUartMmio addr then addr.toNat % 4 else 0 := by
  unfold Lsu.busAddr
  split
  · rfl
  · rw [alignedAddr_toNat]
    omega

theorem busAddr_word (addr : BitVec 32) :
    (Lsu.busAddr addr).toNat / 4 = addr.toNat / 4 := by
  unfold Lsu.busAddr
  split
  · rfl
  · rw [alignedAddr_toNat]
    omega

/-- The size guessed back from mask and address is the size of the access. -/
theorem awsize_eq (ha : misaligned size addr = false) (haddr : m.addrQ = Lsu.busAddr addr)
    (hmask : m.wmaskQ = Lsu.wmask size addr) :
    (AxiMaster.awsize m).toNat = axiSize size := by
  have hlow : m.addrQ.extractLsb' 0 2 =
      if Lsu.isUartMmio addr then addr.extractLsb' 0 2 else 0b00#2 := by
    apply BitVec.eq_of_toNat_eq
    rw [low_toNat, haddr, busAddr_lane, apply_ite BitVec.toNat, low_toNat]
    rfl
  have h0 : m.addrQ.getLsbD 0 = (m.addrQ.extractLsb' 0 2).getLsbD 0 := by
    simp only [BitVec.getLsbD_extractLsb']
    grind
  have h1 : addr.extractLsb' 1 1 = (addr.extractLsb' 0 2).extractLsb' 1 1 := by
    apply BitVec.eq_of_getLsbD_eq
    intro i hi
    simp only [BitVec.getLsbD_extractLsb']
    grind
  have ha0 : addr.getLsbD 0 = (addr.extractLsb' 0 2).getLsbD 0 := by
    simp only [BitVec.getLsbD_extractLsb']
    grind
  rw [misaligned, ha0] at ha
  rw [AxiMaster.awsize, h0, hlow, hmask, Lsu.wmask, Lsu.byteMask, Lsu.halfMask, h1]
  generalize addr.extractLsb' 0 2 = low at ha ⊢
  cases Lsu.isUartMmio addr <;> cases size <;> revert low <;> decide

theorem write_designated_iff (ha : misaligned size addr = false)
    (haddr : m.addrQ = Lsu.busAddr addr) (hmask : m.wmaskQ = Lsu.wmask size addr) :
    (∀ k, (AxiMaster.wstrb m).getLsbD k = true →
      Axi.Designated 4 (AxiMaster.awaddr m).toNat (AxiMaster.awsize m).toNat k) ↔
    Lsu.isUartMmio addr = true ∨ addr.toNat % 4 = 0 := by
  have hlane := busAddr_lane addr
  have hfit := lanes_fit ha
  have halign : addr.toNat % (widthOf size).bytes = 0 := by
    rw [misaligned_eq, Bool.not_eq_false'] at ha
    exact of_decide_eq_true ha
  simp only [AxiMaster.wstrb, AxiMaster.awaddr, hmask, haddr, wmask_lane ha,
    awsize_eq ha haddr hmask]
  cases size with
  | byte =>
    simp only [widthOf, Rv32e.Width.bytes, axiSize, Axi.designated_byte, hlane]
    constructor
    · intro h
      have := h (addr.toNat % 4) ⟨Nat.le_refl _, Nat.lt_succ_self _⟩
      split at this
      · exact Or.inl ‹_›
      · exact Or.inr this
    · rintro h k hk
      split
      · omega
      · have := h.resolve_left ‹_›
        omega
  | half =>
    simp only [widthOf, Rv32e.Width.bytes] at halign ⊢
    have heven : (Lsu.busAddr addr).toNat % 2 = 0 := by
      have h2 : (Lsu.busAddr addr).toNat % 4 % 2 = 0 := by rw [hlane]; split <;> omega
      omega
    simp only [axiSize, Axi.designated_half heven, hlane]
    constructor
    · intro h
      have := h (addr.toNat % 4 + 1) (by omega)
      split at this
      · exact Or.inl ‹_›
      · right
        omega
    · rintro h k hk
      split
      · omega
      · have := h.resolve_left ‹_›
        omega
  | word =>
    simp only [widthOf, Rv32e.Width.bytes] at halign ⊢
    have hz : (Lsu.busAddr addr).toNat % 4 = 0 := by rw [hlane]; split <;> omega
    simp only [axiSize, Axi.designated_word hz]
    constructor
    · intro _
      exact Or.inr halign
    · rintro _ k hk
      omega

theorem wellFormedWrite_iff (data : BitVec 32) (ha : misaligned size addr = false)
    (haddr : m.addrQ = Lsu.busAddr addr) (hmask : m.wmaskQ = Lsu.wmask size addr)
    (hdata : m.wdataQ = Lsu.storeWdata addr data) :
    AxiMaster.WellFormedWrite m (Rv32e.storeBytes (widthOf size) addr data) ↔
      Lsu.isUartMmio addr = true ∨ addr.toNat % 4 = 0 := by
  have hexact : AxiMaster.strobedBytes m = Rv32e.storeBytes (widthOf size) addr data := by
    rw [← Access.bytes_eq ⟨true, size, addr, data⟩ ha]
    simp only [AxiMaster.strobedBytes, AxiMaster.wstrb, AxiMaster.awaddr, AxiMaster.wdata, haddr,
      hmask, hdata, Access.bytes]
  rw [← write_designated_iff ha haddr hmask]
  constructor
  · exact fun h => h.designated
  · exact fun h => ⟨h, hexact⟩

theorem wellFormedRead_iff (ha : misaligned size addr = false)
    (haddr : m.addrQ = Lsu.busAddr addr) :
    AxiMaster.WellFormedRead m addr (widthOf size).bytes ↔
      Lsu.isUartMmio addr = false ∨ size = .byte := by
  have hlane := busAddr_lane addr
  have hword : (AxiMaster.araddr m).toNat / 4 = addr.toNat / 4 := by
    rw [AxiMaster.araddr, haddr, busAddr_word]
  have hfit := lanes_fit ha
  have huart := uart_busAddr addr
  have hsize : (AxiMaster.arsize m).toNat = if Lsu.isUartMmio addr then 0 else 2 := by
    rw [← huart, ← haddr]
    unfold AxiMaster.arsize Lsu.isUartMmio
    split <;> rfl
  cases hu : Lsu.isUartMmio addr with
  | false =>
    rw [hu] at hlane hsize
    have hz : (Lsu.busAddr addr).toNat % 4 = 0 := hlane
    refine iff_of_true ⟨hword, ?_⟩ (Or.inl rfl)
    intro k h1 h2
    rw [AxiMaster.araddr, haddr, hsize]
    exact (Axi.designated_word hz k).mpr (by omega)
  | true =>
    rw [hu] at hlane hsize
    simp only [if_true] at hlane hsize
    have hk : ∀ k, Axi.Designated 4 (AxiMaster.araddr m).toNat (AxiMaster.arsize m).toNat k ↔
        k = addr.toNat % 4 := by
      intro k
      rw [AxiMaster.araddr, haddr, hsize, Axi.designated_byte, hlane]
    constructor
    · intro h
      right
      by_contra hb
      have hbytes : 2 ≤ (widthOf size).bytes := by
        cases size with
        | byte => exact absurd rfl hb
        | half => decide
        | word => decide
      have := (hk _).mp (h.designated (addr.toNat % 4 + 1) (by omega) (by omega))
      omega
    · rintro (h | rfl)
      · exact absurd h (by decide)
      · refine ⟨hword, ?_⟩
        intro k h1 h2
        simp only [widthOf, Rv32e.Width.bytes] at h2
        exact (hk k).mpr (by omega)

end Lanes

/-! ## Who is addressing -/

/-- While a request is being addressed it is the one of the access in W, or the
fetch unit refills and W is empty. Unlike full ownership this needs nothing of
the slave: no answer is possible before the address is accepted. -/
structure Addressing (s : State) : Prop where
  write : s.axi.state = .writeReq → ∀ j : Input, j.reset = false → LsuOwns s j
  read : s.axi.state = .readAddr →
    (∀ j : Input, j.reset = false → LsuOwns s j) ∨ (s.xwValid = false ∧ s.ifu.state = .refill)

theorem next_eq_writeReq {m : AxiMaster.State} {req : BusReq} {axi : AxiIn}
    (hs : (AxiMaster.next m req axi).state = .writeReq) :
    (m.state = .idle ∧ req.write = true) ∨ m.state = .writeReq := by
  cases hp : m.state with
  | idle =>
    cases hv : req.valid <;> cases hw : req.write <;>
      simp [AxiMaster.next, hp, AxiMaster.startRead, AxiMaster.startWrite, hv, hw] at hs
    exact Or.inl ⟨rfl, rfl⟩
  | readAddr => cases ha : axi.arready <;> simp [AxiMaster.next, hp, ha] at hs
  | readData =>
    cases hf : AxiMaster.readFire m axi <;> cases hl : AxiMaster.readLast m axi <;>
      simp [AxiMaster.next, hp, hf, hl] at hs
  | writeReq => exact Or.inr rfl
  | writeResp => cases hv : axi.bvalid <;> simp [AxiMaster.next, hp, hv] at hs

theorem no_answer {s : State} {i : Input} (hp : s.axi.state = .writeReq ∨ s.axi.state = .readAddr) :
    (axiResp s i).ready = false := by
  rcases hp with hp | hp <;> simp [axiResp, AxiMaster.resp, AxiMaster.readFire,
    AxiMaster.writeDone, hp]

theorem refill_waits {s : State} {i : Input} (hs : s.ifu.state = .refill)
    (hq : (ifuBusResp s i).ready = false) : (clock s i).ifu.state = .refill := by
  have hp : (ifuPort s i).bus.ready = false := hq
  rw [clock_ifu, ifu_next_of_refill hs]
  simp [Ifu.refillLast, Ifu.refillFire, hp]

theorem Addressing.clock {s : State} {i : Input} (h : Occupancy s) (hr : i.reset = false)
    (ha : Addressing s) : Addressing (clock s i) where
  write := by
    intro hs j hj
    rw [clock_axi] at hs
    rcases next_eq_writeReq hs with ⟨hi, hw⟩ | hp
    · have hl : lsuArbValid s i = true := by
        simp only [axiReq, AxiArbiter.bus, AxiArbiter.useLsu, Bool.and_eq_true] at hw
        exact hw.1
      exact (idle_lsu_step h hr hj hi hl).1
    · exact ((ha.write hp i hr).stay h hr hj (no_answer (Or.inl hp))).1
  read := by
    intro hs
    have hs' := hs
    rw [clock_axi] at hs'
    rcases AxiMaster.next_eq_readAddr hs' with ⟨hi, _⟩ | ⟨hp, _⟩
    · cases hl : lsuArbValid s i with
      | true => exact Or.inl fun j hj => (idle_lsu_step h hr hj hi hl).1
      | false =>
        right
        rcases ifu_idle_or_refill s.ifu with hf | hf
        · rw [idle_idle_step hi hl hf] at hs
          exact absurd hs (by decide)
        · refine ⟨?_, refill_waits hf (ifu_idle_bus hi)⟩
          rw [h.next_xwValid hr, h.dx_empty_of_refill hf]
          cases hx : s.xwValid with
          | false => rfl
          | true => simp [wMemReadyNow_of_not_arb hr (h.xw_running hx) hl]
    · have hn : (axiResp s i).ready = false := no_answer (Or.inr hp)
      rcases ha.read hp with ho | ⟨hx, hf⟩
      · exact Or.inl fun j hj => ((ho i hr).stay h hr hj hn).1
      · refine Or.inr ⟨?_, refill_waits hf ?_⟩
        · rw [h.next_xwValid hr, h.dx_empty_of_refill hf, hx]
          rfl
        · simp [ifuBusResp, AxiArbiter.ifuResp, hn]

theorem Reachable.addressing {s : State} (h : Reachable s) : Addressing s := by
  refine h.invariant ?_ (fun _ _ hr hs ih => ih.clock hs.occupancy hr)
  intro s i
  constructor
  · intro hs
    exact absurd hs (by simp [resetEdge, AxiMaster.reset])
  · intro hs
    exact absurd hs (by simp [resetEdge, AxiMaster.reset])

/-! ## The transfers of the core -/

section Transfers
variable {s : State} {i : Input}

/-- An access on the bus is that of a legal, aligned load or store outside the
CLINT window. -/
theorem arb_access (hs : Reachable s) (hl : lsuArbValid s i = true) :
    decodeLegal s.xw.inst = true ∧ misaligned s.xw.memSize s.xw.lsuAddr = false ∧
      (lsuRawAddr s).extractLsb' 16 16 ≠ 0x0200#16 := by
  have hx := lsuArbValid_xw hl
  have hf := hs.inFlight
  have hmis : s.xw.memMisaligned =
      ((s.xw.memRen || s.xw.memWen) && misaligned s.xw.memSize s.xw.lsuAddr) := by
    rw [hf.xw_executed hx]
    exact xMemMisaligned_eq _
  simp only [lsuArbValid, lsuIsClint, Bool.and_eq_true, Bool.not_eq_true',
    Bool.and_eq_false_iff] at hl
  obtain ⟨hraw, hclint⟩ := hl
  have hcan : wCanCompleteNoMemFault s.xwValid s.xw s.csr.mtvec = true ∧
      (s.xw.memRen || s.xw.memWen) = true := by
    simp only [lsuRawValid, lsuRen, lsuWen, wLsuWen, Bool.or_eq_true, Bool.and_eq_true] at hraw
    rcases hraw with hv | hv
    · exact ⟨hv.1.2, by simp [hv.2]⟩
    · exact ⟨hv.2.1, by simp [hv.2.2]⟩
  have hc := hcan.1
  simp only [wCanCompleteNoMemFault, Bool.and_eq_true, Bool.not_eq_true'] at hc
  refine ⟨?_, ?_, ?_⟩
  · rw [← hf.xw_legal hx]
    exact hc.1.1.1.1.2
  · rw [hcan.2, Bool.true_and] at hmis
    rw [← hmis]
    exact hc.1.1.1.2
  · rcases hclint with hc' | hc'
    · rw [hraw] at hc'
      exact absurd hc' (by decide)
    · simpa using hc'

/-- Exactly when the transfers of the core are well formed. A store: on the UART
page, or at the first byte of a word. A load: outside the UART page, or of one
byte. -/
theorem transfers_wellFormed_iff (hs : Reachable s) (hr : i.reset = false) :
    ((AxiMaster.awvalid s.axi = true ∨ AxiMaster.wvalid s.axi = true) →
      lsuWen s i = true ∧ misaligned s.xw.memSize s.xw.lsuAddr = false ∧
      (AxiMaster.WellFormedWrite s.axi
          (Rv32e.storeBytes (widthOf s.xw.memSize) s.xw.lsuAddr s.xw.rs2Data) ↔
        Lsu.isUartMmio s.xw.lsuAddr = true ∨ s.xw.lsuAddr.toNat % 4 = 0)) ∧
    (AxiMaster.arvalid s.axi = true → s.xwValid = true →
      lsuRen s i = true ∧ misaligned s.xw.memSize s.xw.lsuAddr = false ∧
      (AxiMaster.WellFormedRead s.axi s.xw.lsuAddr (widthOf s.xw.memSize).bytes ↔
        Lsu.isUartMmio s.xw.lsuAddr = false ∨ s.xw.memSize = .byte)) := by
  have ha := hs.addressing
  constructor
  · intro hv
    have hp : s.axi.state = .writeReq := by
      simp only [AxiMaster.awvalid, AxiMaster.wvalid, Bool.and_eq_true, decide_eq_true_eq] at hv
      rcases hv with hv | hv
      · exact hv.1
      · exact hv.1
    have ho := ha.write hp i hr
    have hmis := (arb_access hs ho.valid).2.1
    have hwen : lsuWen s i = true := by
      by_contra hw
      have hph := ho.phase
      rw [if_neg hw, hp] at hph
      exact absurd hph (by decide)
    exact ⟨hwen, hmis, wellFormedWrite_iff _ hmis ho.addr ho.wmask ho.wdata⟩
  · intro hv hx
    have hp : s.axi.state = .readAddr := of_decide_eq_true hv
    rcases ha.read hp with ho | ⟨hx', -⟩
    · have ho := ho i hr
      have hmis := (arb_access hs ho.valid).2.1
      have hwen : lsuWen s i = false := by
        by_contra hw
        have hph := ho.phase
        rw [if_pos (by simpa using hw), hp] at hph
        exact absurd hph (by decide)
      have hren : lsuRen s i = true := by
        have hval := ho.valid
        simp only [lsuArbValid, lsuRawValid, hwen, Bool.or_false, Bool.and_eq_true] at hval
        exact hval.1
      exact ⟨hren, hmis, wellFormedRead_iff hmis ho.addr⟩
    · rw [hx] at hx'
      exact absurd hx' (by decide)

end Transfers

/-- A slave that answers the first refill with `first` and `second` and then with
`nop` words. -/
def Run.twoWords (first second : BitVec 32) : Run := ⟨blank, 0#32, fun n =>
  if n = 3 then eager first false
  else if n = 4 then eager second false
  else eager 0x00000013#32 (n = 6)⟩

/-- `sb x0, 0(x0)` is a well-formed transfer. -/
theorem transfers_wellFormed_sb :
    AxiMaster.awvalid ((Run.twoWords 0x00000023#32 0x00000013#32).state 10).axi = true ∧
    AxiMaster.WellFormedWrite ((Run.twoWords 0x00000023#32 0x00000013#32).state 10).axi
      (Rv32e.storeBytes .byte 0#32 0#32) := by
  have hv : AxiMaster.awvalid ((Run.twoWords 0x00000023#32 0x00000013#32).state 10).axi = true := by
    decide +kernel
  have hiff := ((transfers_wellFormed_iff ((Run.twoWords 0x00000023#32 0x00000013#32).reachable 10)
    (show ((Run.twoWords 0x00000023#32 0x00000013#32).input 10).reset = false from rfl)).1
      (Or.inl hv)).2.2
  have hxw : ((Run.twoWords 0x00000023#32 0x00000013#32).state 10).xw.memSize = .byte ∧
      ((Run.twoWords 0x00000023#32 0x00000013#32).state 10).xw.lsuAddr = 0#32 ∧
      ((Run.twoWords 0x00000023#32 0x00000013#32).state 10).xw.rs2Data = 0#32 := by decide +kernel
  rw [hxw.1, hxw.2.1, hxw.2.2] at hiff
  exact ⟨hv, hiff.mpr (Or.inr (by decide))⟩

/-- `sb x0, 1(x0)` strobes lane 1 of a transfer that designates lane 0 only, and
`lw x2, 0(x1)` with `x1` at the UART reads a word through a transfer of one byte. -/
theorem transfers_malformed :
    (AxiMaster.awvalid ((Run.twoWords 0x000000a3#32 0x00000013#32).state 10).axi = true ∧
      ¬ AxiMaster.WellFormedWrite ((Run.twoWords 0x000000a3#32 0x00000013#32).state 10).axi
        (Rv32e.storeBytes .byte 1#32 0#32)) ∧
    (AxiMaster.arvalid ((Run.twoWords 0x100000b7#32 0x0000a103#32).state 12).axi = true ∧
      ((Run.twoWords 0x100000b7#32 0x0000a103#32).state 12).xw.inst = 0x0000a103#32 ∧
      ¬ AxiMaster.WellFormedRead ((Run.twoWords 0x100000b7#32 0x0000a103#32).state 12).axi
        0x10000000#32 4) := by
  refine ⟨⟨by decide +kernel, ?_⟩, by decide +kernel, by decide +kernel, ?_⟩
  · intro h
    exact absurd (h.designated 1 (by decide +kernel)) (by decide +kernel)
  · intro h
    exact absurd (h.designated 1 (by decide) (by decide)) (by decide +kernel)

end Core

end Npc
