import AiOsoc.Difftest.Replay
import AiOsoc.Npc.DataCommit
import AiOsoc.Sim.Memory

/-!
# The replay records of the harnesses

The two drivers of the simulation turn the commit outputs of the core into the
record that the emulator replays: `Simulator::step` in `npc/csrc/main.cpp` and
`make_mmio_record` in `npc/csrc/soc_main.cpp`.
-/

namespace Difftest

set_option autoImplicit false

open Npc.Core Nemu

/-! ## Construction -/

def isClintAddr (addr : BitVec 32) : Bool := 0x02000000#32 ≤ addr && addr < 0x02010000#32

def isUartAddr (addr : BitVec 32) : Bool := 0x10000000#32 ≤ addr && addr < 0x10000020#32

def loadLenFromInst (inst : BitVec 32) : Nat :=
  let funct3 := (inst >>> 12) &&& 0x7#32
  if funct3 = 0#32 ∨ funct3 = 4#32 then 1 else if funct3 = 1#32 ∨ funct3 = 5#32 then 2 else 4

namespace Standalone

def isMmioAddr (addr : BitVec 32) : Bool := addr == 0x10000000#32 || isClintAddr addr

def lowContiguousLen (wmask : BitVec 8) : Nat :=
  let len := ((List.range 4).takeWhile fun i => (wmask >>> i) &&& 1#8 != 0#8).length
  if len = 0 then 4 else len

/-- `pending_mmio_read_` after a cycle that leaves the memory in this state. -/
def pendingMmioRead (memory : Sim.Memory) : MMIOReplayRecord :=
  if memory.mmioRecord.isWrite then Sim.Memory.noRecord else memory.mmioRecord

/-- The record of a committed instruction. `memory` is the memory in the cycle of the
commit; the evaluation before its edge makes no access. -/
def mmioRecord (c : CommitMem) (pending : MMIOReplayRecord) (memory : Sim.Memory) :
    MMIOReplayRecord :=
  let readMmioRecord := if pending.valid then pending else memory.clearMmioRecord.mmioRecord
  let wmask := c.wmask.setWidth 8
  let record : MMIOReplayRecord :=
    if c.wen && isMmioAddr c.addr then
      ⟨true, true, c.addr, lowContiguousLen wmask, wmask, c.wdata, 0#32⟩
    else if c.ren && isClintAddr c.addr then
      ⟨true, false, c.addr, loadLenFromInst c.inst, 0#8, 0#32, c.rdata⟩
    else Sim.Memory.noRecord
  if record.valid then record else readMmioRecord

end Standalone

namespace Soc

def isMmioAddr (addr : BitVec 32) : Bool := isUartAddr addr || isClintAddr addr

def signExtend (value : BitVec 32) (bits : Nat) : BitVec 32 :=
  let sign := 1#32 <<< (bits - 1)
  (value ^^^ sign) - sign

def storeLenFromWmask (wmask : BitVec 8) : Nat :=
  if wmask = 0xf#8 then 4 else if wmask &&& (wmask - 1#8) = 0#8 then 1 else 2

/-- `io_debug_regs_flat`, which has sixteen words and a zero for `x0`. -/
def debugReg (regs : Npc.RegFile) (idx : BitVec 32) : BitVec 32 :=
  Npc.RegFile.rdata regs (idx.setWidth 4)

def loadAddrFromInst (regs : Npc.RegFile) (inst : BitVec 32) : BitVec 32 :=
  let rs1 := (inst >>> 15) &&& 0x1f#32
  let imm := signExtend (inst >>> 20) 12
  debugReg regs rs1 + imm

def storeAddrFromInst (regs : Npc.RegFile) (inst : BitVec 32) : BitVec 32 :=
  let rs1 := (inst >>> 15) &&& 0x1f#32
  let imm := ((inst >>> 7) &&& 0x1f#32) ||| (((inst >>> 25) &&& 0x7f#32) <<< 5)
  debugReg regs rs1 + signExtend imm 12

def makeMmioRecord (c : CommitMem) (regs : Npc.RegFile) : MMIOReplayRecord :=
  let wmask := c.wmask.setWidth 8
  let storeAddr := storeAddrFromInst regs c.inst
  let loadAddr := loadAddrFromInst regs c.inst
  if c.wen && isMmioAddr storeAddr then
    let len := storeLenFromWmask wmask
    let mask := if len = 4 then 0xffffffff#32 else (1#32 <<< (len * 8)) - 1#32
    let trueWdata := (c.wdata >>> ((storeAddr &&& 0x3#32) * 8#32)) &&& mask
    ⟨true, true, storeAddr, len, wmask, trueWdata, 0#32⟩
  else if c.ren && isMmioAddr loadAddr then
    ⟨true, false, loadAddr, loadLenFromInst c.inst, 0#8, 0#32, c.rdata⟩
  else Sim.Memory.noRecord

end Soc

/-! ## Fields of the record -/

theorem loadLenFromInst_eq {inst : BitVec 32} {width : Rv32e.Width} {unsigned : Bool}
    {rd rs1 : Rv32e.Reg} {imm : BitVec 12}
    (hd : Rv32e.decodeAny inst = some (.load width unsigned rd rs1 imm)) :
    loadLenFromInst inst = width.bytes := by
  obtain ⟨ho, hk, hsize, -⟩ := load_form hd
  have hlen : ∀ f : BitVec 3, (if f.setWidth 32 = 0#32 ∨ f.setWidth 32 = 4#32 then 1
      else if f.setWidth 32 = 1#32 ∨ f.setWidth 32 = 5#32 then 2 else 4) =
        if f = 0b000#3 ∨ f = 0b100#3 then 1 else if f = 0b001#3 ∨ f = 0b101#3 then 2 else 4 := by
    decide
  simp only [Npc.Idu.loadLegal, Bool.and_eq_true, Bool.or_eq_true, beq_iff_eq] at hk
  obtain rfl : widthOf (Npc.Idu.memSize inst) = width := by rw [hsize, widthOf_memSizeOf]
  rw [loadLenFromInst, masked_funct3, hlen, funct3_eq]
  rcases hk.2 with (((h3 | h3) | h3) | h3) | h3 <;>
    simp [Npc.Idu.memSize, h3, widthOf, Rv32e.Width.bytes]

namespace Soc

/-- Flipping the sign bit of a twelve-bit number. -/
theorem xor_sign {n : Nat} (h : n < 4096) :
    n ^^^ 2048 = if n < 2048 then n + 2048 else n - 2048 := by
  have hmod : (n ^^^ 2048) % 2048 = n % 2048 := by
    simpa using Nat.xor_mod_two_pow (a := n) (b := 2048) (n := 11)
  have hdiv : (n ^^^ 2048) / 2048 = n / 2048 ^^^ 1 := by
    simpa using Nat.xor_div_two_pow (a := n) (b := 2048) (n := 11)
  have hbit : n / 2048 = 0 ∨ n / 2048 = 1 := by omega
  rcases hbit with hz | ho
  · have hflip : (n ^^^ 2048) / 2048 = 1 := by rw [hdiv, hz]; rfl
    rw [if_pos (by omega)]
    omega
  · have hflip : (n ^^^ 2048) / 2048 = 0 := by rw [hdiv, ho]; rfl
    rw [if_neg (by omega)]
    omega

theorem signExtend_eq (v : BitVec 12) : signExtend (v.setWidth 32) 12 = v.signExtend 32 := by
  have hv := v.isLt
  have hx : (v.setWidth 32 ^^^ 2048#32).toNat =
      if v.toNat < 2048 then v.toNat + 2048 else v.toNat - 2048 := by
    rw [BitVec.toNat_xor, BitVec.toNat_setWidth_of_le (by omega)]
    exact xor_sign hv
  apply BitVec.eq_of_toNat_eq
  change ((v.setWidth 32 ^^^ 2048#32) - 2048#32).toNat = _
  rw [BitVec.toNat_sub, hx, BitVec.toNat_signExtend, BitVec.msb_eq_decide,
    BitVec.toNat_setWidth_of_le (by omega)]
  by_cases hs : v.toNat < 2048
  · have hm : ¬ 2 ^ (12 - 1) ≤ v.toNat := by omega
    simp only [hs, hm, if_true, decide_false, Bool.false_eq_true, if_false, BitVec.toNat_ofNat]
    omega
  · have hm : 2 ^ (12 - 1) ≤ v.toNat := by omega
    simp only [hs, hm, if_false, decide_true, if_true, BitVec.toNat_ofNat]
    omega

theorem shifted_imm (inst : BitVec 32) : inst >>> 20 = (Rv32e.funct12 inst).setWidth 32 := by
  apply BitVec.eq_of_getLsbD_eq
  intro i hi
  simp only [Rv32e.funct12, BitVec.getLsbD_ushiftRight, BitVec.getLsbD_setWidth,
    BitVec.getLsbD_extractLsb']
  grind

theorem joined_imm (inst : BitVec 32) :
    ((inst >>> 7) &&& 0x1f#32) ||| (((inst >>> 25) &&& 0x7f#32) <<< 5) =
      (Rv32e.immS inst).setWidth 32 := by
  have h7 : (inst >>> 7) &&& 0x1f#32 = (inst.extractLsb' 7 5).setWidth 32 :=
    field_masked 7 (w := 5) (by omega)
  have h25 : (inst >>> 25) &&& 0x7f#32 = (inst.extractLsb' 25 7).setWidth 32 :=
    field_masked 25 (w := 7) (by omega)
  rw [h7, h25]
  apply BitVec.eq_of_getLsbD_eq
  intro i hi
  simp only [Rv32e.immS, BitVec.getLsbD_or, BitVec.getLsbD_shiftLeft, BitVec.getLsbD_setWidth,
    BitVec.getLsbD_append, BitVec.getLsbD_extractLsb']
  grind

theorem debugReg_eq (regs : Npc.RegFile) (inst : BitVec 32) :
    debugReg regs ((inst >>> 15) &&& 0x1f#32) = regsOf regs (Rv32e.rs1 inst) := by
  have h15 : (inst >>> 15) &&& 0x1f#32 = (Rv32e.rs1 inst).setWidth 32 :=
    field_masked 15 (w := 5) (by omega)
  rw [h15, debugReg, regsOf]
  congr 1

end Soc

theorem wmask_len {size : Npc.MemSize} {addr : BitVec 32} (ha : misaligned size addr = false) :
    Soc.storeLenFromWmask ((Npc.Lsu.wmask size addr).setWidth 8) = (widthOf size).bytes ∧
      (addr.toNat % 4 = 0 → Standalone.lowContiguousLen ((Npc.Lsu.wmask size addr).setWidth 8) =
        (widthOf size).bytes) := by
  refine lanes_of_low (P := fun mask lane =>
    Soc.storeLenFromWmask (mask.setWidth 8) = (widthOf size).bytes ∧
      (lane = 0 → Standalone.lowContiguousLen (mask.setWidth 8) = (widthOf size).bytes)) ha ?_
  cases size <;> decide

theorem unshifted {addr : BitVec 32} (data : BitVec 32) {len : Nat}
    (hl : len = 1 ∨ len = 2 ∨ len = 4) (hfit : addr.toNat % 4 + len ≤ 4) :
    (Npc.Lsu.storeWdata addr data >>> ((addr &&& 0x3#32) * 8#32)) &&&
      (if len = 4 then 0xffffffff#32 else (1#32 <<< (len * 8)) - 1#32) = lowBytes len data := by
  have hshift : ((addr &&& 0x3#32) * 8#32).toNat = 8 * (addr.toNat % 4) := by
    have hand : (addr &&& 0x3#32).toNat = addr.toNat % 4 := by
      rw [BitVec.toNat_and]
      exact Nat.and_two_pow_sub_one_eq_mod addr.toNat 2
    rw [BitVec.toNat_mul, hand]
    simp only [BitVec.toNat_ofNat]
    omega
  rw [BitVec.ushiftRight_eq', hshift]
  apply BitVec.eq_of_getLsbD_eq
  intro i hi
  have hmask : (if len = 4 then 0xffffffff#32 else (1#32 <<< (len * 8)) - 1#32).getLsbD i =
      decide (i < 8 * len) := by
    revert i
    rcases hl with rfl | rfl | rfl <;> decide
  rw [BitVec.getLsbD_and, hmask]
  simp only [Npc.Lsu.storeWdata, lowBytes, BitVec.getLsbD_ushiftRight, BitVec.shiftLeft_eq',
    BitVec.getLsbD_shiftLeft, byteShift_toNat, BitVec.getLsbD_setWidth]
  grind

/-! ## One committed access -/

/-- The core commits the access `a` of the word `inst`, aligned and without a fault, from
the state of the emulator. -/
structure Commits (m : Machine) (s : State) (i : Npc.Core.Input) (inst : BitVec 32)
    (a : Rv32e.DataAccess) : Prop where
  agree : Agree m s
  retiring : Retiring s i m.cpu.pc inst
  decoded : ∃ instr, Rv32e.decode inst = some instr ∧ instr.dataAccess m.cpu.gpr = some a
  aligned : Rv32e.aligned a.width a.addr = true
  answered : (lsuRaw s i).error = false

/-- The emulator of the shared build fetches `inst` with the record installed, and no older
record is left. -/
structure Installs (cfg : Config) (m : Machine) (record : MMIOReplayRecord)
    (inst : BitVec 32) : Prop where
  share : cfg.targetShare = true
  devices : ∃ dev, cfg.devices = some dev
  idle : m.mem.mmioReplay.valid = false
  fetches : Fetches cfg m record inst

/-- What the handler is asked for by the access. -/
def request (a : Rv32e.DataAccess) : Request :=
  ⟨a.write, a.addr, a.width.bytes, lowBytes a.width.bytes a.data⟩

theorem lowBytes_zero (len : Nat) : lowBytes len 0#32 = 0#32 := by simp [lowBytes]

theorem lowBytes_extended (len : Nat) (v : BitVec (8 * len)) :
    lowBytes len (v.signExtend 32) = v.setWidth 32 ∧
      lowBytes len (v.setWidth 32) = v.setWidth 32 := by
  constructor
  all_goals
    apply BitVec.eq_of_getLsbD_eq
    intro i hi
    simp only [lowBytes, BitVec.getLsbD_setWidth, BitVec.getLsbD_signExtend]
    grind

/-- Extending what was already extended changes nothing. -/
theorem extendLoad_loadValue (width : Rv32e.Width) (unsigned : Bool) (byte : BitVec 32 → BitVec 8)
    (addr : BitVec 32) : extendLoad width unsigned
      (lowBytes width.bytes (Rv32e.loadValue width unsigned byte addr)) =
    Rv32e.loadValue width unsigned byte addr := by
  cases width with
  | byte =>
    obtain ⟨hs, hz⟩ := lowBytes_extended 1 (byte addr)
    cases unsigned with
    | false =>
      change sextByte (lowBytes 1 ((byte addr).signExtend 32)) = (byte addr).signExtend 32
      rw [hs]
      exact SEXT_read (byte addr) (by omega)
    | true => exact hz
  | half =>
    obtain ⟨hs, hz⟩ := lowBytes_extended 2 (byte (addr + 1#32) ++ byte addr)
    cases unsigned with
    | false =>
      change sextHalf (lowBytes 2 ((byte (addr + 1#32) ++ byte addr).signExtend 32)) =
        (byte (addr + 1#32) ++ byte addr).signExtend 32
      rw [hs]
      exact SEXT_read (byte (addr + 1#32) ++ byte addr) (by omega)
    | true => exact hz
  | word => exact (lowBytes_extended 4 (Rv32e.loadValue .word unsigned byte addr)).2

/-- A committed load: both sides have its address, and the core writes back the data it shows. -/
structure CommitsLoad (m : Machine) (s : State) (i : Npc.Core.Input) (inst : BitVec 32)
    (a : Rv32e.DataAccess) (unsigned : Bool) (rd rs1 : Rv32e.Reg) (imm : BitVec 12) : Prop where
  data : a.data = 0#32
  decoded : Rv32e.decodeAny inst = some (.load a.width unsigned rd rs1 imm)
  addr : a.addr = m.cpu.gpr rs1 + imm.signExtend 32
  dutAddr : a.addr = regsOf s.regs rs1 + imm.signExtend 32
  write : (retireEffect s i).write = Rv32e.setReg rd (commitMem s i).rdata
  extended : extendLoad a.width unsigned (lowBytes a.width.bytes (commitMem s i).rdata) =
    (commitMem s i).rdata

structure CommitsStore (m : Machine) (s : State) (i : Npc.Core.Input) (inst : BitVec 32)
    (a : Rv32e.DataAccess) (rs1 rs2 : Rv32e.Reg) (imm : BitVec 12) : Prop where
  data : a.data = m.cpu.gpr rs2
  decoded : Rv32e.decodeAny inst = some (.store a.width rs1 rs2 imm)
  addr : a.addr = m.cpu.gpr rs1 + imm.signExtend 32
  dutAddr : a.addr = regsOf s.regs rs1 + imm.signExtend 32
  write : (retireEffect s i).write = none

section Committed
variable {m : Machine} {s : State} {i : Npc.Core.Input} {inst : BitVec 32} {a : Rv32e.DataAccess}

/-- A committed access is that of a load or of a store, as the outputs show. -/
theorem Commits.cases (h : Commits m s i inst a) :
    ShowsAccess (commitMem s i) a ∧
      ((a.write = false ∧ ∃ unsigned rd rs1 imm, CommitsLoad m s i inst a unsigned rd rs1 imm) ∨
        (a.write = true ∧ ∃ rs1 rs2 imm, CommitsStore m s i inst a rs1 rs2 imm)) := by
  obtain ⟨hag, hret, ⟨instr, hd, ha⟩, hal, he⟩ := h
  have hregs : ∀ r ∈ instr.regs, m.cpu.gpr r = regsOf s.regs r := by
    intro r hr
    exact hag.gpr r (Rv32e.decode_regs hd hr)
  have hany := Rv32e.decodeAny_of_decode hd
  cases instr with
  | load width unsigned rd rs1 imm =>
    obtain rfl := Option.some.inj ha
    have h1 := hregs rs1 (by simp [Rv32e.Instr.regs])
    have hal' : Rv32e.aligned width (regsOf s.regs rs1 + imm.signExtend 32) = true := h1 ▸ hal
    obtain ⟨hshown, hwrite, hrdata⟩ := hret.load_shown hal' he hd
    rw [← h1] at hshown
    refine ⟨hshown, .inl ⟨rfl, unsigned, rd, rs1, imm, rfl, hany, rfl, by rw [h1], hwrite, ?_⟩⟩
    rw [hrdata]
    exact extendLoad_loadValue ..
  | store width rs1 rs2 imm =>
    obtain rfl := Option.some.inj ha
    have h1 := hregs rs1 (by simp [Rv32e.Instr.regs])
    have h2 := hregs rs2 (by simp [Rv32e.Instr.regs])
    have hal' : Rv32e.aligned width (regsOf s.regs rs1 + imm.signExtend 32) = true := h1 ▸ hal
    obtain ⟨hshown, hwrite⟩ := hret.store_shown hal' he hd
    rw [← h1, ← h2] at hshown
    exact ⟨hshown, .inr ⟨rfl, rs1, rs2, imm, rfl, hany, rfl, by rw [h1], hwrite⟩⟩
  | _ => cases ha

theorem Commits.inst_eq (h : Commits m s i inst a) : (commitMem s i).inst = inst :=
  h.retiring.inst_eq

theorem Commits.load (h : Commits m s i inst a) (hw : a.write = false) :
    ∃ unsigned rd rs1 imm, CommitsLoad m s i inst a unsigned rd rs1 imm := by
  obtain ⟨-, ⟨-, hload⟩ | ⟨hw', -⟩⟩ := h.cases
  · exact hload
  · rw [hw] at hw'
    cases hw'

theorem Commits.store (h : Commits m s i inst a) (hw : a.write = true) :
    ∃ rs1 rs2 imm, CommitsStore m s i inst a rs1 rs2 imm := by
  obtain ⟨-, ⟨hw', -⟩ | ⟨-, hstore⟩⟩ := h.cases
  · rw [hw] at hw'
    cases hw'
  · exact hstore

section Replay
variable {cfg : Config} {record : MMIOReplayRecord} {map : IOMap} (h : Commits m s i inst a)
  (hr : Installs cfg m record inst) (hmap : ReplayMap map) (hin : mapInside map a.addr = true)

include h hmap hin in
theorem Commits.inMap : InMap map a.addr a.width.bytes := by
  have hal : a.addr.toNat % a.width.bytes = 0 := of_decide_eq_true h.aligned
  rw [mapInside_iff] at hin
  have hrange := hmap.range
  refine ⟨hin.1, ?_⟩
  cases hw : a.width <;> simp only [hw, Rv32e.Width.bytes] at hal ⊢ <;> omega

include h hr hmap hin

/-- The replay of a committed access works when its handler asks for the record and the
record has the answer. -/
theorem Commits.replays_iff (hrdata : a.write = false → record.rdata = (commitMem s i).rdata)
    (hvalid : covers map.device (a.addr - map.low) a.width.bytes = false → record.valid = true)
    (hself : record.answers ⟨false, m.cpu.pc, 4, 0#32⟩ = true →
      covers map.device (a.addr - map.low) a.width.bytes = true ∨
        (a.addr = m.cpu.pc ∧ a.width = .word)) :
    Replays cfg m record (writeGpr m.cpu.gpr (retireEffect s i).write) ↔
      PlainFetch m.cpu.pc ∧ covers map.device (a.addr - map.low) a.width.bytes = true ∧
        record.answers (request a) = true := by
  obtain ⟨hshare, ⟨dev, hdev⟩, hidle, hf⟩ := hr
  have h0 : m.cpu.gpr 0#5 = 0#32 := by
    rw [h.agree.gpr 0#5 (by decide), regsOf_zero]
  have hi := h.inMap hmap hin
  cases hw : a.write with
  | false =>
    obtain ⟨unsigned, rd, rs1, imm, hl⟩ := h.load hw
    have hreq : request a = ⟨false, a.addr, a.width.bytes, 0#32⟩ := by
      rw [request, hw, hl.data, lowBytes_zero]
    rw [hl.write, hreq]
    exact replays_load_iff hshare hdev h0 hidle hf hmap hl.addr hi hvalid hself hl.decoded
      (by rw [hrdata hw, hl.extended])
  | true =>
    obtain ⟨rs1, rs2, imm, hs⟩ := h.store hw
    have hreq : request a =
        ⟨true, a.addr, a.width.bytes, lowBytes a.width.bytes (m.cpu.gpr rs2)⟩ := by
      rw [request, hw, hs.data]
    rw [hs.write, hreq]
    exact replays_store_iff hshare hdev h0 hidle hf hmap hs.addr hi hvalid hself hs.decoded

end Replay

end Committed

/-! ## The standalone record -/

theorem alignedAddr_eq_self {addr : BitVec 32} :
    Npc.Lsu.alignedAddr addr = addr ↔ addr.toNat % 4 = 0 := by
  rw [← BitVec.toNat_inj, alignedAddr_toNat]
  omega

theorem isClintAddr_iff {addr : BitVec 32} : isClintAddr addr = true ↔
    0x02000000 ≤ addr.toNat ∧ addr.toNat < 0x02010000 := by
  simp only [isClintAddr, Bool.and_eq_true, decide_eq_true_eq, BitVec.le_def, BitVec.lt_def,
    BitVec.toNat_ofNat]

theorem isUartAddr_iff {addr : BitVec 32} : isUartAddr addr = true ↔
    0x10000000 ≤ addr.toNat ∧ addr.toNat < 0x10000020 := by
  simp only [isUartAddr, Bool.and_eq_true, decide_eq_true_eq, BitVec.le_def, BitVec.lt_def,
    BitVec.toNat_ofNat]

theorem clint_inside {addr : BitVec 32} (h : isClintAddr addr = true) :
    mapInside (mmioMap npcClintBase npcClintSize .npcClint) addr = true := by
  rw [isClintAddr_iff] at h
  rw [mapInside_iff]
  change 0x02000000 ≤ addr.toNat ∧ addr.toNat ≤ 0x0200ffff
  omega

theorem uart_inside {addr : BitVec 32} (h : isUartAddr addr = true) :
    mapInside (mmioMap npcUartBase npcUartSize .npcUart) addr = true := by
  rw [isUartAddr_iff] at h
  rw [mapInside_iff]
  change 0x10000000 ≤ addr.toNat ∧ addr.toNat ≤ 0x1000001f
  omega

theorem isClintAddr_aligned (addr : BitVec 32) :
    isClintAddr (Npc.Lsu.alignedAddr addr) = isClintAddr addr := by
  rw [Bool.eq_iff_iff, isClintAddr_iff, isClintAddr_iff, alignedAddr_toNat]
  omega

theorem storeWdata_aligned {addr : BitVec 32} (h : addr.toNat % 4 = 0) (data : BitVec 32) :
    Npc.Lsu.storeWdata addr data = data := by
  rw [Npc.Lsu.storeWdata, BitVec.shiftLeft_eq', byteShift_toNat, h]
  exact BitVec.shiftLeft_zero data

theorem word_of_bytes {width : Rv32e.Width} (h : width.bytes = 4) : width = .word := by
  cases width with
  | byte => cases h
  | half => cases h
  | word => rfl

/-- A record of the other direction has no answer. -/
theorem not_answers {record : MMIOReplayRecord} {q : Request}
    (hw : record.isWrite ≠ q.isWrite) : record.answers q = false := by
  rw [Bool.eq_false_iff]
  intro ha
  simp only [MMIOReplayRecord.answers, Bool.and_eq_true, beq_iff_eq] at ha
  exact hw ha.1.2

namespace Standalone

variable {m : Machine} {s : State} {i : Npc.Core.Input} {inst : BitVec 32} {a : Rv32e.DataAccess}
  (h : Commits m s i inst a) (before memory : Sim.Memory)

theorem pendingMmioRead_isWrite : (pendingMmioRead before).isWrite = false := by
  unfold pendingMmioRead
  split
  · rfl
  · simp_all

include h

theorem record_store (hw : a.write = true)
    (hmmio : isMmioAddr (Npc.Lsu.alignedAddr a.addr) = true) :
    mmioRecord (commitMem s i) (pendingMmioRead before) memory =
      ⟨true, true, Npc.Lsu.alignedAddr a.addr,
        lowContiguousLen ((Npc.Lsu.wmask (memSizeOf a.width) a.addr).setWidth 8),
        (Npc.Lsu.wmask (memSizeOf a.width) a.addr).setWidth 8,
        Npc.Lsu.storeWdata a.addr a.data, 0#32⟩ := by
  obtain ⟨hwen, -, haddr, hwdata, hwmask⟩ := h.cases.1
  have hcond : ((commitMem s i).wen && isMmioAddr (commitMem s i).addr) = true := by
    rw [hwen, hw, haddr, hmmio]
    rfl
  rw [mmioRecord, if_pos hcond, if_pos rfl, haddr, hwdata hw, hwmask]

theorem record_load (hw : a.write = false) (hclint : isClintAddr a.addr = true) :
    mmioRecord (commitMem s i) (pendingMmioRead before) memory =
      ⟨true, false, Npc.Lsu.alignedAddr a.addr, a.width.bytes, 0#8, 0#32,
        (commitMem s i).rdata⟩ := by
  obtain ⟨hwen, hren, haddr, -, -⟩ := h.cases.1
  obtain ⟨unsigned, rd, rs1, imm, hl⟩ := h.load hw
  have hno : ((commitMem s i).wen && isMmioAddr (commitMem s i).addr) = false := by
    rw [hwen, hw]
    rfl
  have hcond : ((commitMem s i).ren && isClintAddr (commitMem s i).addr) = true := by
    rw [hren hw, haddr, isClintAddr_aligned, hclint]
    rfl
  rw [mmioRecord, hno, if_neg Bool.false_ne_true, if_pos hcond, if_pos rfl, haddr, h.inst_eq,
    loadLenFromInst_eq hl.decoded]

/-- A store that is not replayed leaves the record of an earlier read, or none. -/
theorem record_other (hmmio : isMmioAddr (Npc.Lsu.alignedAddr a.addr) = false) :
    (mmioRecord (commitMem s i) (pendingMmioRead before) memory).isWrite = false := by
  have haddr := h.cases.1.addr
  have hclint : isClintAddr (Npc.Lsu.alignedAddr a.addr) = false := by
    simp only [isMmioAddr, Bool.or_eq_false_iff] at hmmio
    exact hmmio.2
  have hwen : ((commitMem s i).wen && isMmioAddr (commitMem s i).addr) = false := by
    rw [haddr, hmmio, Bool.and_false]
  have hren : ((commitMem s i).ren && isClintAddr (commitMem s i).addr) = false := by
    rw [haddr, hclint, Bool.and_false]
  rw [mmioRecord, hwen, hren, if_neg Bool.false_ne_true, if_neg Bool.false_ne_true]
  change (if (pendingMmioRead before).valid then pendingMmioRead before
    else Sim.Memory.noRecord).isWrite = false
  split
  · exact pendingMmioRead_isWrite before
  · rfl

/-- The record of a store answers when the access starts its word and no other bytes of the
register are set. -/
theorem store_answers (hw : a.write = true)
    (hmmio : isMmioAddr (Npc.Lsu.alignedAddr a.addr) = true) :
    (mmioRecord (commitMem s i) (pendingMmioRead before) memory).answers (request a) = true ↔
      a.addr.toNat % 4 = 0 ∧ lowBytes a.width.bytes a.data = a.data := by
  have hlen := (wmask_len (not_misaligned h.aligned)).2
  rw [widthOf_memSizeOf] at hlen
  rw [record_store h before memory hw hmmio]
  simp only [MMIOReplayRecord.answers, request, hw, Bool.and_eq_true, beq_iff_eq, Bool.not_true,
    Bool.false_or, Bool.true_and, beq_self_eq_true, and_true, alignedAddr_eq_self]
  constructor
  · rintro ⟨⟨h4, -⟩, hdata⟩
    rw [storeWdata_aligned h4] at hdata
    exact ⟨h4, hdata.symm⟩
  · rintro ⟨h4, hdata⟩
    rw [storeWdata_aligned h4]
    exact ⟨⟨h4, hlen h4⟩, hdata.symm⟩

theorem load_answers (hw : a.write = false) (hclint : isClintAddr a.addr = true) :
    (mmioRecord (commitMem s i) (pendingMmioRead before) memory).answers (request a) = true ↔
      a.addr.toNat % 4 = 0 := by
  rw [record_load h before memory hw hclint]
  simp [MMIOReplayRecord.answers, request, hw, alignedAddr_eq_self]

omit before memory in
theorem load_data (hw : a.write = false) : lowBytes a.width.bytes a.data = a.data := by
  obtain ⟨unsigned, rd, rs1, imm, hl⟩ := h.load hw
  rw [hl.data, lowBytes_zero]

variable {cfg : Config} (hr : Installs cfg m
  (mmioRecord (commitMem s i) (pendingMmioRead before) memory) inst)
include hr

theorem clint_iff (hc : isClintAddr a.addr = true) :
    Replays cfg m (mmioRecord (commitMem s i) (pendingMmioRead before) memory)
        (writeGpr m.cpu.gpr (retireEffect s i).write) ↔
      PlainFetch m.cpu.pc ∧ clintRegAccess (a.addr - 0x02000000#32) a.width.bytes = true ∧
        a.addr.toNat % 4 = 0 ∧ lowBytes a.width.bytes a.data = a.data := by
  have hmmio : isMmioAddr (Npc.Lsu.alignedAddr a.addr) = true := by
    rw [isMmioAddr, isClintAddr_aligned, hc, Bool.or_true]
  cases hw : a.write with
  | true =>
    have hrec := record_store h before memory hw hmmio
    have hself : (mmioRecord (commitMem s i) (pendingMmioRead before) memory).answers
        ⟨false, m.cpu.pc, 4, 0#32⟩ = false := not_answers (by simp [hrec])
    rw [h.replays_iff hr .clint (clint_inside hc) (by simp [hw]) (by simp [hrec])
      (by rw [hself]; nofun), store_answers h before memory hw hmmio]
    rfl
  | false =>
    have hrec := record_load h before memory hw hc
    have hself : (mmioRecord (commitMem s i) (pendingMmioRead before) memory).answers
        ⟨false, m.cpu.pc, 4, 0#32⟩ = true → a.addr = m.cpu.pc ∧ a.width = .word := by
      rw [hrec]
      simp only [MMIOReplayRecord.answers, Bool.and_eq_true, beq_iff_eq]
      rintro ⟨⟨⟨⟨-, haddr⟩, hlen⟩, -⟩, -⟩
      have hword := word_of_bytes hlen
      have h4 : a.addr.toNat % 4 = 0 := by
        have hal := h.aligned
        rw [hword] at hal
        exact of_decide_eq_true hal
      rw [alignedAddr_eq_self.mpr h4] at haddr
      exact ⟨haddr, hword⟩
    rw [h.replays_iff hr .clint (clint_inside hc) (by simp [hrec]) (by simp [hrec])
      (fun ha => .inr (hself ha)), load_answers h before memory hw hc,
      and_iff_left (load_data h hw)]
    rfl

theorem uart_iff (hu : isUartAddr a.addr = true) (hw : a.write = true) :
    Replays cfg m (mmioRecord (commitMem s i) (pendingMmioRead before) memory)
        (writeGpr m.cpu.gpr (retireEffect s i).write) ↔
      PlainFetch m.cpu.pc ∧ a.addr = 0x10000000#32 ∧ lowBytes a.width.bytes a.data = a.data := by
  rw [h.replays_iff hr .uart (uart_inside hu) (by simp [hw]) nofun (fun _ => .inl rfl)]
  have haddr : a.addr = 0x10000000#32 ↔
      isMmioAddr (Npc.Lsu.alignedAddr a.addr) = true ∧ a.addr.toNat % 4 = 0 := by
    rw [isUartAddr_iff] at hu
    rw [isMmioAddr, Bool.or_eq_true, beq_iff_eq, isClintAddr_iff, ← BitVec.toNat_inj,
      ← BitVec.toNat_inj, alignedAddr_toNat]
    change _ = 0x10000000 ↔ (_ = 0x10000000 ∨ _) ∧ _
    omega
  rw [haddr]
  cases hmmio : isMmioAddr (Npc.Lsu.alignedAddr a.addr) with
  | true =>
    rw [store_answers h before memory hw hmmio]
    simp [covers, mmioMap]
  | false =>
    have hno : (mmioRecord (commitMem s i) (pendingMmioRead before) memory).answers (request a) =
        false := not_answers (by simp [request, hw, record_other h before memory hmmio])
    simp [hno]

end Standalone

/-! ## The record of the SoC -/

namespace Soc

variable {m : Machine} {s : State} {i : Npc.Core.Input} {inst : BitVec 32} {a : Rv32e.DataAccess}
  (h : Commits m s i inst a)
include h

theorem record_store (hw : a.write = true) (hmmio : isMmioAddr a.addr = true) :
    makeMmioRecord (commitMem s i) s.regs = ⟨true, true, a.addr, a.width.bytes,
      (Npc.Lsu.wmask (memSizeOf a.width) a.addr).setWidth 8, lowBytes a.width.bytes a.data,
      0#32⟩ := by
  obtain ⟨hwen, -, -, hwdata, hwmask⟩ := h.cases.1
  obtain ⟨rs1, rs2, imm, hs⟩ := h.store hw
  have hlen := (wmask_len (not_misaligned h.aligned)).1
  have hfit := lanes_fit (not_misaligned h.aligned)
  rw [widthOf_memSizeOf] at hlen hfit
  have haddr' : storeAddrFromInst s.regs inst = a.addr := by
    obtain ⟨-, -, -, rfl, -, himm⟩ := store_form hs.decoded
    rw [Npc.Core.immS_eq] at himm
    rw [storeAddrFromInst, debugReg_eq, joined_imm, signExtend_eq, himm, hs.dutAddr]
    rfl
  have hcond : ((commitMem s i).wen && isMmioAddr a.addr) = true := by
    rw [hwen, hw, hmmio]
    rfl
  rw [makeMmioRecord, h.inst_eq, haddr', if_pos hcond, hwmask, hlen, hwdata hw]
  simp only [unshifted a.data (bytes_cases a.width) hfit]

theorem record_load (hw : a.write = false) (hmmio : isMmioAddr a.addr = true) :
    makeMmioRecord (commitMem s i) s.regs =
      ⟨true, false, a.addr, a.width.bytes, 0#8, 0#32, (commitMem s i).rdata⟩ := by
  obtain ⟨hwen, hren, -, -, -⟩ := h.cases.1
  obtain ⟨unsigned, rd, rs1, imm, hl⟩ := h.load hw
  have haddr' : loadAddrFromInst s.regs inst = a.addr := by
    obtain ⟨-, -, -, -, -, rfl, himm⟩ := load_form hl.decoded
    rw [Npc.Core.immI_eq] at himm
    rw [loadAddrFromInst, debugReg_eq, shifted_imm, signExtend_eq, himm, hl.dutAddr]
    rfl
  have hno : ((commitMem s i).wen && isMmioAddr (storeAddrFromInst s.regs inst)) = false := by
    rw [hwen, hw]
    rfl
  have hcond : ((commitMem s i).ren && isMmioAddr a.addr) = true := by
    rw [hren hw, hmmio]
    rfl
  rw [makeMmioRecord, h.inst_eq, haddr', hno, if_neg Bool.false_ne_true, if_pos hcond,
    loadLenFromInst_eq hl.decoded]

/-- The record has the answer to its own access. -/
theorem record_answers (hmmio : isMmioAddr a.addr = true) :
    (makeMmioRecord (commitMem s i) s.regs).answers (request a) = true := by
  cases hw : a.write with
  | true =>
    rw [record_store h hw hmmio]
    simp [MMIOReplayRecord.answers, request, hw]
  | false =>
    rw [record_load h hw hmmio]
    simp [MMIOReplayRecord.answers, request, hw]

variable {cfg : Config} {map : IOMap}
  (hr : Installs cfg m (makeMmioRecord (commitMem s i) s.regs) inst)
include hr

theorem window_iff (hmap : ReplayMap map) (hin : mapInside map a.addr = true)
    (hmmio : isMmioAddr a.addr = true) :
    Replays cfg m (makeMmioRecord (commitMem s i) s.regs)
        (writeGpr m.cpu.gpr (retireEffect s i).write) ↔
      PlainFetch m.cpu.pc ∧ covers map.device (a.addr - map.low) a.width.bytes = true := by
  have hans := record_answers h hmmio
  have hself : (makeMmioRecord (commitMem s i) s.regs).answers ⟨false, m.cpu.pc, 4, 0#32⟩ = true →
      a.addr = m.cpu.pc ∧ a.width = .word := by
    intro ha
    simp only [MMIOReplayRecord.answers, request, Bool.and_eq_true, beq_iff_eq] at ha hans
    exact ⟨hans.1.1.1.2.symm.trans ha.1.1.1.2, word_of_bytes (hans.1.1.2.symm.trans ha.1.1.2)⟩
  rw [h.replays_iff hr hmap hin (fun hw => by rw [record_load h hw hmmio])
    (fun _ => valid_of_answers hans) (fun ha => .inr (hself ha))]
  simp [hans]

end Soc

/-! ## Accesses from the mask ROM -/

/-- The emulator before a load or a store in the mask ROM. -/
def accessMachine (inst x1 x2 : BitVec 32) : Machine where
  cpu := ⟨fun r => if r = 2#5 then x2 else if r = 1#5 then x1 else 0#32, 0x20000000#32, 0x1800#32,
    0#32, 0#32, 0#32⟩
  mem := { blankMemory with host := fun _ k => inst.extractLsb' (8 * k) 8 }
  state := .running
  haltPc := 0#32
  haltRet := 0#32

/-- The core with the same instruction in W, and the bus in the given phase. -/
def accessState (inst x1 x2 : BitVec 32) (phase : Npc.AxiMaster.Phase) : State :=
  { blank with
    xwValid := true
    xw := xStage (dStage ⟨0x20000000#32, inst, false⟩ x1 x2) Npc.Csr.reset
    regs := Npc.RegFile.next (Npc.RegFile.next Npc.RegFile.reset true 1#4 x1) true 2#4 x2
    axi := { Npc.AxiMaster.reset with state := phase } }

def idleMemory : Sim.Memory :=
  ⟨0x80000000#32, 0x08000000#32, fun _ => 0#8, 0#64, Sim.Memory.noRecord⟩

section FromRom
variable (inst x1 x2 : BitVec 32)

theorem access_agree (phase : Npc.AxiMaster.Phase) :
    Agree (accessMachine inst x1 x2) (accessState inst x1 x2 phase) := by
  have h1 : ∀ rd v, some (1#5, x1) = some (rd, v) → rd ≠ 0#5 ∧ rd < 16#5 := by
    rintro rd v ⟨⟩
    decide
  have h2 : ∀ rd v, some (2#5, x2) = some (rd, v) → rd ≠ 0#5 ∧ rd < 16#5 := by
    rintro rd v ⟨⟩
    decide
  refine ⟨?_, rfl⟩
  intro r hr
  have h := agree_write (fun r hr => agree_write reset_zero h1 r hr) h2 r hr
  rw [writeGpr, Function.update_apply, writeGpr, Function.update_apply] at h
  exact h

theorem access_installs (record : MMIOReplayRecord) :
    Installs refConfig (accessMachine inst x1 x2) record inst := by
  have hset : ∃ mem, setMmioReplay refConfig (accessMachine inst x1 x2).mem record = .ok mem ∧
      mem.host = (accessMachine inst x1 x2).mem.host := by
    unfold setMmioReplay
    split
    · exact ⟨_, rfl, rfl⟩
    · exact ⟨_, rfl, rfl⟩
  obtain ⟨mem, hset, hhost⟩ := hset
  have hfetch : vaddrIfetch refConfig mem 0x20000000#32 4 = .ok (mem.host .mrom 3 ++
      mem.host .mrom 2 ++ mem.host .mrom 1 ++ mem.host .mrom 0, mem) := rfl
  have hok : vaddrAccessOk refConfig 0x20000000#32 4 = true := by decide
  have hword : inst.extractLsb' 24 8 ++ inst.extractLsb' 16 8 ++ inst.extractLsb' 8 8 ++
      inst.extractLsb' 0 8 = inst := by
    apply BitVec.eq_of_getLsbD_eq
    intro k hk
    simp only [BitVec.getLsbD_append, BitVec.getLsbD_extractLsb']
    grind
  rw [hhost] at hfetch
  refine ⟨rfl, ⟨_, rfl⟩, rfl, hok, mem, mem, hset, hfetch.trans ?_⟩
  exact congrArg (fun w => Except.ok (w, mem)) hword

variable {inst x1 x2} {phase : Npc.AxiMaster.Phase}

theorem access_commits {instr : Rv32e.Instr} {a : Rv32e.DataAccess}
    (hready : wRetireReady (accessState inst x1 x2 phase) idleInput = true)
    (hrs1 : Npc.Idu.rs1 inst = 1#5)
    (hrs2 : Npc.Idu.readsRs2 inst = true → Npc.Idu.rs2 inst = 2#5)
    (hd : Rv32e.decode inst = some instr)
    (ha : instr.dataAccess (accessMachine inst x1 x2).cpu.gpr = some a)
    (hal : Rv32e.aligned a.width a.addr = true)
    (he : (lsuRaw (accessState inst x1 x2 phase) idleInput).error = false) :
    Commits (accessMachine inst x1 x2) (accessState inst x1 x2 phase) idleInput inst a := by
  refine ⟨access_agree inst x1 x2 phase, ⟨hready, rfl, rfl, ?_, ?_⟩, ⟨instr, hd, ha⟩, hal, he⟩
  · intro _ _
    rw [hrs1]
    exact ((access_agree inst x1 x2 phase).gpr 1#5 (by decide))
  · intro hreads _
    rw [hrs2 hreads]
    exact ((access_agree inst x1 x2 phase).gpr 2#5 (by decide))

theorem lw_decoded : Rv32e.decode 0x0000a183#32 = some (.load .word false 3#5 1#5 0#12) := by
  decide

theorem rom_plainFetch : PlainFetch 0x20000000#32 := by
  rintro map (_ | _)
  · decide
  · decide

end FromRom

/-! ## When the replay works -/

section Exact
variable {cfg : Config} {m : Machine} {s : State} {i : Npc.Core.Input} {inst : BitVec 32}
  {a : Rv32e.DataAccess}

/-- The standalone harness replays an access without an alarm exactly when the instruction is
not fetched from a device, the access starts its word, it writes the whole value of its
register, and it is to the first word of the UART or to a register of the CLINT. -/
theorem standalone_replays_iff (h : Commits m s i inst a)
    (hw : isClintAddr a.addr = true ∨ (a.write = true ∧ isUartAddr a.addr = true))
    (before memory : Sim.Memory)
    (hr : Installs cfg m (Standalone.mmioRecord (commitMem s i)
      (Standalone.pendingMmioRead before) memory) inst) :
    Replays cfg m (Standalone.mmioRecord (commitMem s i) (Standalone.pendingMmioRead before) memory)
        (writeGpr m.cpu.gpr (retireEffect s i).write) ↔
      PlainFetch m.cpu.pc ∧ a.addr.toNat % 4 = 0 ∧ lowBytes a.width.bytes a.data = a.data ∧
        (isUartAddr a.addr = true → a.addr = 0x10000000#32) ∧
        (isClintAddr a.addr = true →
          clintRegAccess (a.addr - 0x02000000#32) a.width.bytes = true) := by
  cases hc : isClintAddr a.addr with
  | true =>
    have hu : isUartAddr a.addr = false := by
      rw [Bool.eq_false_iff, ne_eq, isUartAddr_iff]
      rw [isClintAddr_iff] at hc
      omega
    rw [Standalone.clint_iff h before memory hr hc]
    simp only [hu, Bool.false_eq_true, false_imp_iff, true_and, forall_const]
    constructor
    · rintro ⟨hp, hcov, h4, hd⟩
      exact ⟨hp, h4, hd, hcov⟩
    · rintro ⟨hp, h4, hd, hcov⟩
      exact ⟨hp, hcov, h4, hd⟩
  | false =>
    obtain ⟨hwr, hu⟩ := hw.resolve_left (by simp [hc])
    rw [Standalone.uart_iff h before memory hr hu hwr]
    simp only [hu, Bool.false_eq_true, false_imp_iff, and_true, forall_const]
    constructor
    · rintro ⟨hp, haddr, hd⟩
      exact ⟨hp, by rw [haddr]; rfl, hd, haddr⟩
    · rintro ⟨hp, -, hd, haddr⟩
      exact ⟨hp, haddr, hd⟩

/-- `lw x3, 0(x1)` from `mtime`. -/
theorem standalone_replays_iff_mtime :
    let m := accessMachine 0x0000a183#32 0x0200bff8#32 0#32
    let s := accessState 0x0000a183#32 0x0200bff8#32 0#32 .idle
    Replays refConfig m
      (Standalone.mmioRecord (commitMem s idleInput) (Standalone.pendingMmioRead idleMemory)
        idleMemory) (writeGpr m.cpu.gpr (retireEffect s idleInput).write) :=
  (standalone_replays_iff
    (access_commits (a := ⟨false, .word, 0x0200bff8#32, 0#32⟩) (by decide +kernel) (by decide)
      (by decide) lw_decoded rfl (by decide) (by decide +kernel))
    (by decide) idleMemory idleMemory (access_installs ..)).mpr
    ⟨rom_plainFetch, by decide, by decide, by decide, by decide⟩

/-- `sb x2, 0(x1)` to the UART with more than a byte in `x2`. -/
theorem standalone_alarm :
    let m := accessMachine 0x00208023#32 0x10000000#32 0x141#32
    let s := accessState 0x00208023#32 0x10000000#32 0x141#32 .writeResp
    let record := Standalone.mmioRecord (commitMem s idleInput)
      (Standalone.pendingMmioRead idleMemory) idleMemory
    Commits m s idleInput 0x00208023#32 ⟨true, .byte, 0x10000000#32, 0x141#32⟩ ∧
      Installs refConfig m record 0x00208023#32 ∧
      record = ⟨true, true, 0x10000000#32, 1, 1#8, 0x141#32, 0#32⟩ ∧
      ¬ Replays refConfig m record (writeGpr m.cpu.gpr (retireEffect s idleInput).write) := by
  intro m s record
  have hc : Commits m s idleInput 0x00208023#32 ⟨true, .byte, 0x10000000#32, 0x141#32⟩ :=
    access_commits (by decide +kernel) (by decide) (by decide)
      (show Rv32e.decode 0x00208023#32 = some (.store .byte 1#5 2#5 0#12) by decide)
      rfl (by decide) (by decide +kernel)
  have hi : Installs refConfig m record 0x00208023#32 := access_installs ..
  refine ⟨hc, hi, by decide +kernel, ?_⟩
  rw [Standalone.uart_iff hc idleMemory idleMemory hi (by decide) rfl]
  rintro ⟨-, -, hdata⟩
  exact absurd hdata (by decide)

/-- The harness of the SoC replays an access without an alarm exactly when the instruction is
not fetched from a device and an access to the CLINT is to one of its registers. -/
theorem soc_replays_iff (h : Commits m s i inst a) (hw : Soc.isMmioAddr a.addr = true)
    (hr : Installs cfg m (Soc.makeMmioRecord (commitMem s i) s.regs) inst) :
    Replays cfg m (Soc.makeMmioRecord (commitMem s i) s.regs)
        (writeGpr m.cpu.gpr (retireEffect s i).write) ↔
      PlainFetch m.cpu.pc ∧ (isClintAddr a.addr = true →
        clintRegAccess (a.addr - 0x02000000#32) a.width.bytes = true) := by
  cases hc : isClintAddr a.addr with
  | true =>
    rw [Soc.window_iff h hr .clint (clint_inside hc) hw]
    simp only [forall_const]
    rfl
  | false =>
    have hu : isUartAddr a.addr = true := by
      simpa [Soc.isMmioAddr, hc] using hw
    rw [Soc.window_iff h hr .uart (uart_inside hu) hw]
    simp [covers, mmioMap]

theorem soc_replays_iff_mtime :
    let m := accessMachine 0x0000a183#32 0x0200bff8#32 0#32
    let s := accessState 0x0000a183#32 0x0200bff8#32 0#32 .idle
    Replays refConfig m (Soc.makeMmioRecord (commitMem s idleInput) s.regs)
      (writeGpr m.cpu.gpr (retireEffect s idleInput).write) :=
  (soc_replays_iff
    (access_commits (a := ⟨false, .word, 0x0200bff8#32, 0#32⟩) (by decide +kernel) (by decide)
      (by decide) lw_decoded rfl (by decide) (by decide +kernel))
    (by decide) (access_installs ..)).mpr
    ⟨rom_plainFetch, by decide⟩

/-- `lw x3, 0(x1)` from a word of the CLINT window without a register. -/
theorem soc_alarm :
    let m := accessMachine 0x0000a183#32 0x02000008#32 0#32
    let s := accessState 0x0000a183#32 0x02000008#32 0#32 .idle
    let record := Soc.makeMmioRecord (commitMem s idleInput) s.regs
    Commits m s idleInput 0x0000a183#32 ⟨false, .word, 0x02000008#32, 0#32⟩ ∧
      Installs refConfig m record 0x0000a183#32 ∧
      record = ⟨true, false, 0x02000008#32, 4, 0#8, 0#32, 0#32⟩ ∧
      ¬ Replays refConfig m record (writeGpr m.cpu.gpr (retireEffect s idleInput).write) := by
  intro m s record
  have hc : Commits m s idleInput 0x0000a183#32 ⟨false, .word, 0x02000008#32, 0#32⟩ :=
    access_commits (by decide +kernel) (by decide) (by decide) lw_decoded rfl (by decide)
      (by decide +kernel)
  have hi : Installs refConfig m record 0x0000a183#32 := access_installs ..
  refine ⟨hc, hi, by decide +kernel, ?_⟩
  rw [Soc.window_iff hc hi .clint (clint_inside (by decide)) (by decide)]
  rintro ⟨-, hcov⟩
  exact absurd hcov (by decide)

end Exact

end Difftest
