import AiOsoc.Nemu.Memory
import AiOsoc.Npc.Datapath

/-!
# Memory of the simulator

`npc/csrc/memory.cpp` in the `NPC_DEBUG` build: the byte array behind the bus,
read and written by words. Through the LSU it is a byte-addressed little-endian
memory.
-/

namespace Sim

set_option autoImplicit false

def uartBase : BitVec 32 := 0x10000000#32
def uartEnd : BitVec 32 := 0x10000020#32
def clintBase : BitVec 32 := 0x02000000#32
def clintEnd : BitVec 32 := 0x02010000#32
def clintMtime : BitVec 32 := clintBase + 0xbff8#32
def clintMtimeh : BitVec 32 := clintBase + 0xbffc#32

def lowContiguousMask (wmask : BitVec 8) : BitVec 8 :=
  match (List.range 4).find? fun i => !wmask.getLsbD i with
  | some i => wmask &&& (1#8 <<< i - 1#8)
  | none => wmask &&& 0xf#8

/-- The number of shifts until the mask is zero; four bits are enough. -/
def maskLen (wmask : BitVec 8) : Nat :=
  let mask := lowContiguousMask wmask
  let len := (((List.range 5).find? fun i => mask >>> i == 0#8).getD 0)
  if len = 0 then 4 else len

structure Memory where
  base : BitVec 32
  size : BitVec 32
  data : Nat → BitVec 8
  time : BitVec 64
  mmioRecord : Nemu.MMIOReplayRecord

namespace Memory
variable (m : Memory)

def contains (addr len : BitVec 32) : Bool :=
  if addr < m.base then false
  else
    let off := addr - m.base
    off ≤ m.size && len ≤ m.size - off

def accessOk (addr : BitVec 32) : Bool :=
  m.contains addr 4#32 || (uartBase ≤ addr && addr < uartEnd) ||
    (clintBase ≤ addr && addr < clintEnd)

def setTime (time : BitVec 64) : Memory := { m with time := time }

def noRecord : Nemu.MMIOReplayRecord := ⟨false, false, 0#32, 0, 0#8, 0#32, 0#32⟩

def clearMmioRecord : Memory := { m with mmioRecord := noRecord }

def read32 (addr : BitVec 32) : BitVec 32 × Memory :=
  if addr = clintMtime ∨ addr = clintMtimeh then
    let data := if addr = clintMtime then m.time.setWidth 32 else (m.time >>> 32).setWidth 32
    (data, { m with mmioRecord := ⟨true, false, addr, 4, 0#8, 0#32, data⟩ })
  else if clintBase ≤ addr ∧ addr < clintEnd then
    (0#32, { m with mmioRecord := ⟨true, false, addr, 4, 0#8, 0#32, 0#32⟩ })
  else if !m.contains addr 4#32 then (0#32, m)
  else
    let off := (addr - m.base).toNat
    ((m.data off).setWidth 32 ||| (m.data (off + 1)).setWidth 32 <<< 8 |||
      (m.data (off + 2)).setWidth 32 <<< 16 ||| (m.data (off + 3)).setWidth 32 <<< 24, m)

/-- The loop over the lanes of `write32`. -/
def storeLanes (p : Nat → BitVec 8) (off : Nat) (data : BitVec 32) (wmask : BitVec 8) :
    Nat → BitVec 8 :=
  (List.range 4).foldl (fun p i =>
    if wmask.getLsbD i then Function.update p (off + i) ((data >>> (i * 8)).setWidth 8) else p) p

def write32 (addr data : BitVec 32) (wmask : BitVec 8) : Memory :=
  if (uartBase ≤ addr ∧ addr < uartEnd) ∨ (clintBase ≤ addr ∧ addr < clintEnd) then
    { m with mmioRecord := ⟨true, true, addr, maskLen wmask, wmask &&& 0xf#8, data, 0#32⟩ }
  else if !m.contains addr 4#32 then m
  else { m with data := storeLanes m.data (addr - m.base).toNat data wmask }

end Memory

/-! ## Through the LSU -/

open Npc Npc.Core

inductive DataOp where
  | load (size : MemSize) (unsigned : Bool) (addr : BitVec 32)
  | store (size : MemSize) (addr data : BitVec 32)
  deriving Repr, DecidableEq

def DataOp.size : DataOp → MemSize
  | .load size _ _ => size
  | .store size _ _ => size

def DataOp.addr : DataOp → BitVec 32
  | .load _ _ addr => addr
  | .store _ addr _ => addr

/-- The access as a bus request on the memory, and the value of a load. -/
def lsuPerform (m : Memory) : DataOp → List (BitVec 32) × Memory
  | .load size unsigned addr =>
    let (word, m) := m.read32 (Lsu.busAddr addr)
    ([Lsu.rdata size unsigned addr true word], m)
  | .store size addr data =>
    ([], m.write32 (Lsu.busAddr addr) (Lsu.storeWdata addr data)
      ((Lsu.wmask size addr).setWidth 8))

/-- A sequence of accesses: the values loaded, in order, and the memory after it. -/
def lsuRun (m : Memory) : List DataOp → List (BitVec 32) × Memory
  | [] => ([], m)
  | op :: ops =>
    let (v, m) := lsuPerform m op
    let (vs, m) := lsuRun m ops
    (v ++ vs, m)

/-! ## The byte array -/

abbrev Bytes := BitVec 32 → BitVec 8

/-- A store changes the bytes from `addr` on, one for each byte of the width. -/
def byteStore (b : Bytes) (width : Rv32e.Width) (addr data : BitVec 32) : Bytes := fun a =>
  if (a - addr).toNat < width.bytes then data.extractLsb' (8 * (a - addr).toNat) 8 else b a

def bytePerform (b : Bytes) : DataOp → List (BitVec 32) × Bytes
  | .load size unsigned addr => ([Rv32e.loadValue (widthOf size) unsigned b addr], b)
  | .store size addr data => ([], byteStore b (widthOf size) addr data)

def byteRun (b : Bytes) : List DataOp → List (BitVec 32) × Bytes
  | [] => ([], b)
  | op :: ops =>
    let (v, b) := bytePerform b op
    let (vs, b) := byteRun b ops
    (v ++ vs, b)

/-- The bytes of the simulated memory by address. -/
def Memory.bytes (m : Memory) : Bytes := fun a => m.data (a - m.base).toNat

/-! ## One access -/

theorem high_toNat (addr : BitVec 32) : (addr.extractLsb' 16 16).toNat = addr.toNat / 65536 := by
  have hlt := addr.isLt
  rw [BitVec.extractLsb'_toNat, Nat.shiftRight_eq_div_pow]
  omega

/-- The access is aligned, its bus word lies in the memory, and it is neither on
the UART page nor in the CLINT window. -/
structure DataOp.Inside (m : Memory) (op : DataOp) : Prop where
  aligned : misaligned op.size op.addr = false
  not_uart : Lsu.isUartMmio op.addr = false
  not_clint : op.addr.extractLsb' 16 16 ≠ 0x0200#16
  contained : m.contains (Lsu.alignedAddr op.addr) 4#32 = true

section Word
variable {m : Memory} {addr : BitVec 32}

/-- What `contains` says of a word, in numbers. -/
theorem Memory.contains_word {w : BitVec 32} (h : m.contains w 4#32 = true) :
    m.base.toNat ≤ w.toNat ∧ w.toNat + 4 ≤ m.base.toNat + m.size.toNat ∧
      (w - m.base).toNat = w.toNat - m.base.toNat := by
  have hw := w.isLt
  have hs := m.size.isLt
  have hb := m.base.isLt
  unfold Memory.contains at h
  split at h
  · exact absurd h (by decide)
  · rename_i hge
    simp only [BitVec.lt_def, Nat.not_lt] at hge
    have hoff : (w - m.base).toNat = w.toNat - m.base.toNat := by
      rw [BitVec.toNat_sub]
      omega
    simp only [Bool.and_eq_true, decide_eq_true_eq, BitVec.le_def, BitVec.toNat_sub, hoff,
      BitVec.toNat_ofNat] at h
    refine ⟨hge, ?_, hoff⟩
    omega

theorem not_device (hu : Lsu.isUartMmio addr = false) (hc : addr.extractLsb' 16 16 ≠ 0x0200#16) :
    Lsu.busAddr addr = Lsu.alignedAddr addr ∧
      ¬ (uartBase ≤ Lsu.alignedAddr addr ∧ Lsu.alignedAddr addr < uartEnd) ∧
      ¬ (clintBase ≤ Lsu.alignedAddr addr ∧ Lsu.alignedAddr addr < clintEnd) := by
  have hpage : addr.toNat / 65536 ≠ 0x1000 := by
    rw [← high_toNat]
    intro he
    have : addr.extractLsb' 16 16 = 0x1000#16 := BitVec.eq_of_toNat_eq he
    simp [Lsu.isUartMmio, this] at hu
  have hclint : addr.toNat / 65536 ≠ 0x200 := by
    rw [← high_toNat]
    exact fun he => hc (BitVec.eq_of_toNat_eq he)
  refine ⟨by simp [Lsu.busAddr, hu], ?_, ?_⟩
  · rw [BitVec.le_def, BitVec.lt_def, alignedAddr_toNat]
    simp only [uartBase, uartEnd, BitVec.toNat_ofNat]
    omega
  · rw [BitVec.le_def, BitVec.lt_def, alignedAddr_toNat]
    simp only [clintBase, clintEnd, BitVec.toNat_ofNat]
    omega

/-- The address of a byte of the word at `w`. -/
theorem Memory.bytes_lane {w : BitVec 32} (h : m.contains w 4#32 = true) {k : Nat} (hk : k < 4) :
    m.bytes (w + BitVec.ofNat 32 k) = m.data ((w - m.base).toNat + k) := by
  obtain ⟨hle, hend, hoff⟩ := Memory.contains_word h
  have hb := m.base.isLt
  have hs := m.size.isLt
  have hw := w.isLt
  have hidx : (w + BitVec.ofNat 32 k - m.base).toNat = (w - m.base).toNat + k := by
    rw [BitVec.toNat_sub, BitVec.toNat_add, BitVec.toNat_ofNat, hoff]
    omega
  rw [Memory.bytes, hidx]

/-- The four bytes of a word, put together as `read32` does. -/
theorem word_lane (b0 b1 b2 b3 : BitVec 8) {k : Nat} (hk : k < 4) :
    (b0.setWidth 32 ||| b1.setWidth 32 <<< 8 ||| b2.setWidth 32 <<< 16 |||
      b3.setWidth 32 <<< 24).extractLsb' (8 * k) 8 = [b0, b1, b2, b3].get ⟨k, hk⟩ := by
  apply BitVec.eq_of_getLsbD_eq
  intro i hi
  obtain rfl | rfl | rfl | rfl : k = 0 ∨ k = 1 ∨ k = 2 ∨ k = 3 := by omega
  all_goals
    simp only [BitVec.getLsbD_extractLsb', BitVec.getLsbD_or, BitVec.getLsbD_shiftLeft,
      BitVec.getLsbD_setWidth, List.get]
    grind

/-- A word read outside the devices has the bytes of the memory in its lanes. -/
theorem Memory.read32_lanes {w : BitVec 32} (h : m.contains w 4#32 = true)
    (hc : ¬ (clintBase ≤ w ∧ w < clintEnd)) :
    (m.read32 w).2 = m ∧
      ∀ k, k < 4 → (m.read32 w).1.extractLsb' (8 * k) 8 = m.bytes (w + BitVec.ofNat 32 k) := by
  have ht : ¬ (w = clintMtime ∨ w = clintMtimeh) := by
    rintro (rfl | rfl)
    · exact hc (by decide)
    · exact hc (by decide)
  have hread : m.read32 w = ((m.data (w - m.base).toNat).setWidth 32 |||
      (m.data ((w - m.base).toNat + 1)).setWidth 32 <<< 8 |||
      (m.data ((w - m.base).toNat + 2)).setWidth 32 <<< 16 |||
      (m.data ((w - m.base).toNat + 3)).setWidth 32 <<< 24, m) := by
    simp [Memory.read32, ht, hc, h]
  rw [hread]
  refine ⟨rfl, ?_⟩
  intro k hk
  rw [word_lane _ _ _ _ hk, Memory.bytes_lane h hk]
  obtain rfl | rfl | rfl | rfl : k = 0 ∨ k = 1 ∨ k = 2 ∨ k = 3 := by omega
  all_goals rfl

/-- The first `n` turns of the loop of `write32` store the strobed ones of the
first `n` lanes and nothing else. -/
theorem storeLanes_turns (p : Nat → BitVec 8) (off : Nat) (data : BitVec 32) (wmask : BitVec 8)
    (n o : Nat) :
    (List.range n).foldl (fun p i => if wmask.getLsbD i then
        Function.update p (off + i) ((data >>> (i * 8)).setWidth 8) else p) p o =
      if off ≤ o ∧ o < off + n ∧ wmask.getLsbD (o - off) = true then
        data.extractLsb' (8 * (o - off)) 8 else p o := by
  induction n with
  | zero =>
    rw [if_neg (by omega)]
    rfl
  | succ n ih =>
    rw [List.range_succ, List.foldl_append, List.foldl_cons, List.foldl_nil]
    by_cases ho : o = off + n
    · subst ho
      have hsub : off + n - off = n := by omega
      rw [if_neg (by omega)] at ih
      rw [hsub]
      cases hb : wmask.getLsbD n with
      | true =>
        rw [if_pos rfl, Function.update_self, if_pos ⟨by omega, by omega, rfl⟩, Nat.mul_comm]
        exact BitVec.setWidth_ushiftRight_eq_extractLsb
      | false =>
        rw [if_neg (by decide), ih, if_neg (by simp)]
    · have hiff : (off ≤ o ∧ o < off + (n + 1) ∧ wmask.getLsbD (o - off) = true) ↔
          (off ≤ o ∧ o < off + n ∧ wmask.getLsbD (o - off) = true) := by
        constructor
        · exact fun h => ⟨h.1, by omega, h.2.2⟩
        · exact fun h => ⟨h.1, by omega, h.2.2⟩
      simp only [hiff]
      rw [← ih]
      split
      · rw [Function.update_of_ne ho]
      · rfl

/-- A byte in a word, by its distance from the start of the word. -/
theorem lane_of_offset {w a : BitVec 32} (h : m.contains w 4#32 = true) :
    ((w - m.base).toNat ≤ (a - m.base).toNat ∧ (a - m.base).toNat < (w - m.base).toNat + 4 ↔
      (a - w).toNat < 4) ∧
    ((a - w).toNat < 4 → (a - m.base).toNat - (w - m.base).toNat = (a - w).toNat) := by
  obtain ⟨hle, hend, hoff⟩ := Memory.contains_word h
  have hb := m.base.isLt
  have hs := m.size.isLt
  have hw := w.isLt
  have ha := a.isLt
  rw [hoff, BitVec.toNat_sub a, BitVec.toNat_sub a]
  omega

theorem store_bytes {size : MemSize} (data : BitVec 32) (ha : misaligned size addr = false)
    (h : m.contains (Lsu.alignedAddr addr) 4#32 = true) (a : BitVec 32) :
    Memory.storeLanes m.data (Lsu.alignedAddr addr - m.base).toNat (Lsu.storeWdata addr data)
      ((Lsu.wmask size addr).setWidth 8) (a - m.base).toNat =
    byteStore m.bytes (widthOf size) addr data a := by
  obtain ⟨hin, hsub⟩ := lane_of_offset (a := a) h
  have hfit := lanes_fit ha
  have hw := alignedAddr_toNat addr
  have haddr := addr.isLt
  have halt := a.isLt
  -- the distance from the address is the lane less the lane of the address
  have hdist : (a - addr).toNat < (widthOf size).bytes ↔
      (a - Lsu.alignedAddr addr).toNat < 4 ∧ addr.toNat % 4 ≤ (a - Lsu.alignedAddr addr).toNat ∧
        (a - Lsu.alignedAddr addr).toNat < addr.toNat % 4 + (widthOf size).bytes := by
    rw [BitVec.toNat_sub, BitVec.toNat_sub, hw]
    omega
  have hdist' : (a - addr).toNat < (widthOf size).bytes →
      (a - Lsu.alignedAddr addr).toNat = addr.toNat % 4 + (a - addr).toNat := by
    rw [BitVec.toNat_sub, BitVec.toNat_sub, hw]
    omega
  have hmask : ∀ k, k < 4 → (((Lsu.wmask size addr).setWidth 8).getLsbD k = true ↔
      addr.toNat % 4 ≤ k ∧ k < addr.toNat % 4 + (widthOf size).bytes) := by
    intro k hk
    rw [← wmask_lane ha, BitVec.getLsbD_setWidth]
    have hk8 : k < 8 := by omega
    simp [hk8]
  rw [Memory.storeLanes, storeLanes_turns, byteStore]
  by_cases hd : (a - addr).toNat < (widthOf size).bytes
  · obtain ⟨h4, hl1, hl2⟩ := hdist.mp hd
    have hlane : ((Lsu.wmask size addr).setWidth 8).getLsbD
        ((a - m.base).toNat - (Lsu.alignedAddr addr - m.base).toNat) = true := by
      rw [hsub h4]
      exact (hmask _ h4).mpr ⟨hl1, hl2⟩
    rw [if_pos hd, if_pos ⟨(hin.mpr h4).1, (hin.mpr h4).2, hlane⟩, hsub h4, hdist' hd]
    exact lane_data data (by omega)
  · rw [if_neg hd, if_neg]
    · rfl
    · rintro ⟨h1, h2, hm⟩
      have h4 := hin.mp ⟨h1, h2⟩
      rw [hsub h4, hmask _ h4] at hm
      exact hd (hdist.mpr ⟨h4, hm.1, hm.2⟩)

theorem loadValue_congr (width : Rv32e.Width) (unsigned : Bool) {f g : Bytes} (addr : BitVec 32)
    (h : ∀ k, k < width.bytes → f (addr + BitVec.ofNat 32 k) = g (addr + BitVec.ofNat 32 k)) :
    Rv32e.loadValue width unsigned f addr = Rv32e.loadValue width unsigned g addr := by
  have h0 : 0 < width.bytes → f addr = g addr := by
    intro hw
    have := h 0 hw
    rwa [BitVec.add_zero] at this
  cases width with
  | byte => simp only [Rv32e.loadValue, h0 (by decide)]
  | half => simp only [Rv32e.loadValue, h0 (by decide), h 1 (by decide)]
  | word =>
    simp only [Rv32e.loadValue, h0 (by decide), h 1 (by decide), h 2 (by decide), h 3 (by decide)]

theorem load_bytes {size : MemSize} (unsigned : Bool) (ha : misaligned size addr = false)
    (h : m.contains (Lsu.alignedAddr addr) 4#32 = true)
    (hc : ¬ (clintBase ≤ Lsu.alignedAddr addr ∧ Lsu.alignedAddr addr < clintEnd)) :
    Lsu.rdata size unsigned addr true (m.read32 (Lsu.alignedAddr addr)).1 =
      Rv32e.loadValue (widthOf size) unsigned m.bytes addr := by
  have hlanes := (Memory.read32_lanes h hc).2
  have hfit := lanes_fit ha
  rw [rdata_eq unsigned _ ha]
  apply loadValue_congr
  intro k hk
  have hlt := addr.isLt
  have hlane : (addr + BitVec.ofNat 32 k).toNat % 4 = addr.toNat % 4 + k := by
    rw [BitVec.toNat_add, BitVec.toNat_ofNat]
    omega
  have hbyte := lane_addr addr k
  rw [alignedAddr_busAddr] at hbyte
  rw [laneByte, hlane, hlanes _ (by omega), hbyte]

theorem write32_eq (data : BitVec 32) (wmask : BitVec 8)
    (h : m.contains (Lsu.alignedAddr addr) 4#32 = true)
    (hu : ¬ (uartBase ≤ Lsu.alignedAddr addr ∧ Lsu.alignedAddr addr < uartEnd))
    (hc : ¬ (clintBase ≤ Lsu.alignedAddr addr ∧ Lsu.alignedAddr addr < clintEnd)) :
    m.write32 (Lsu.alignedAddr addr) data wmask = { m with
      data := Memory.storeLanes m.data (Lsu.alignedAddr addr - m.base).toNat data wmask } := by
  rw [Memory.write32, if_neg (by rintro (h | h); exact hu h; exact hc h), h]
  rfl

end Word

/-- One access through the LSU is the access on the byte array. -/
theorem perform_refines {m : Memory} {op : DataOp} (h : op.Inside m) :
    (lsuPerform m op).1 = (bytePerform m.bytes op).1 ∧
      (lsuPerform m op).2.bytes = (bytePerform m.bytes op).2 ∧
      (lsuPerform m op).2.base = m.base ∧ (lsuPerform m op).2.size = m.size := by
  obtain ⟨hbus, huart, hclint⟩ := not_device h.not_uart h.not_clint
  cases op with
  | load size unsigned addr =>
    have hb : Lsu.busAddr addr = Lsu.alignedAddr addr := hbus
    have hkeep : (m.read32 (Lsu.alignedAddr addr)).2 = m :=
      (Memory.read32_lanes h.contained hclint).1
    simp only [lsuPerform, bytePerform, hb, hkeep, and_self, and_true]
    exact congrArg (fun v => [v]) (load_bytes unsigned h.aligned h.contained hclint)
  | store size addr data =>
    have hb : Lsu.busAddr addr = Lsu.alignedAddr addr := hbus
    have hwrite := write32_eq (Lsu.storeWdata addr data) ((Lsu.wmask size addr).setWidth 8)
      h.contained huart hclint
    refine ⟨rfl, ?_, ?_, ?_⟩
    · funext a
      simp only [lsuPerform, bytePerform, hb]
      rw [show m.write32 (Lsu.alignedAddr addr) _ _ = _ from hwrite]
      exact store_bytes data h.aligned h.contained a
    · simp only [lsuPerform, hb]
      rw [show m.write32 (Lsu.alignedAddr addr) _ _ = _ from hwrite]
    · simp only [lsuPerform, hb]
      rw [show m.write32 (Lsu.alignedAddr addr) _ _ = _ from hwrite]

theorem DataOp.Inside.of_same {m m' : Memory} {op : DataOp} (h : op.Inside m)
    (hb : m'.base = m.base) (hs : m'.size = m.size) : op.Inside m' where
  aligned := h.aligned
  not_uart := h.not_uart
  not_clint := h.not_clint
  contained := by
    have hc := h.contained
    rw [Memory.contains] at hc ⊢
    rwa [hb, hs]

/-- In a memory of whole words the bus word of an access inside is inside. -/
theorem word_inside {m : Memory} (hb : m.base.toNat % 4 = 0) (hs : m.size.toNat % 4 = 0)
    {addr : BitVec 32} {len : Nat} (hl : 1 ≤ len) (hl4 : len ≤ 4)
    (h : m.contains addr (BitVec.ofNat 32 len) = true) :
    m.contains (Lsu.alignedAddr addr) 4#32 = true := by
  have ha := addr.isLt
  have hbl := m.base.isLt
  have hsl := m.size.isLt
  have hw := alignedAddr_toNat addr
  unfold Memory.contains at h ⊢
  split at h
  · exact absurd h (by decide)
  · rename_i hge
    rw [BitVec.lt_def, Nat.not_lt] at hge
    have hoff : (addr - m.base).toNat = addr.toNat - m.base.toNat := by
      rw [BitVec.toNat_sub]
      omega
    have hoff' : (Lsu.alignedAddr addr - m.base).toNat =
        addr.toNat - addr.toNat % 4 - m.base.toNat := by
      rw [BitVec.toNat_sub, hw]
      omega
    simp only [Bool.and_eq_true, decide_eq_true_eq, BitVec.le_def, BitVec.toNat_sub m.size, hoff,
      BitVec.toNat_ofNat] at h
    rw [if_neg (by rw [BitVec.lt_def, hw]; omega)]
    simp only [Bool.and_eq_true, decide_eq_true_eq, BitVec.le_def, BitVec.toNat_sub m.size, hoff',
      BitVec.toNat_ofNat]
    omega

theorem run_refines (m : Memory) (ops : List DataOp) (h : ∀ op ∈ ops, op.Inside m) :
    (lsuRun m ops).1 = (byteRun m.bytes ops).1 ∧
      (lsuRun m ops).2.bytes = (byteRun m.bytes ops).2 := by
  induction ops generalizing m with
  | nil => exact ⟨rfl, rfl⟩
  | cons op ops ih =>
    obtain ⟨hv, hbytes, hb, hs⟩ := perform_refines (h op List.mem_cons_self)
    have htail : ∀ o ∈ ops, o.Inside (lsuPerform m op).2 := fun o ho =>
      (h o (List.mem_cons_of_mem op ho)).of_same hb hs
    obtain ⟨hvs, hend⟩ := ih _ htail
    rw [hbytes] at hvs hend
    exact ⟨by simp only [lsuRun, byteRun, hv, hvs], hend⟩

/-- Loads and stores through the LSU are byte-addressed little-endian memory: any
sequence of accesses loads the values, and leaves the bytes, that it does on a
byte array. The bus word of an access has to lie in the memory; where base and
size are multiples of four this is so for every access that does. -/
theorem lsu_memory_refines (m : Memory) (ops : List DataOp) (h : ∀ op ∈ ops, op.Inside m) :
    (lsuRun m ops).1 = (byteRun m.bytes ops).1 ∧
      (lsuRun m ops).2.bytes = (byteRun m.bytes ops).2 ∧
      (m.base.toNat % 4 = 0 → m.size.toNat % 4 = 0 → ∀ op : DataOp,
        m.contains op.addr (BitVec.ofNat 32 (widthOf op.size).bytes) = true →
        m.contains (Lsu.alignedAddr op.addr) 4#32 = true) := by
  obtain ⟨hv, hend⟩ := run_refines m ops h
  refine ⟨hv, hend, ?_⟩
  intro hb hs op hin
  refine word_inside hb hs ?_ ?_ hin
  · cases op.size <;> decide
  · cases op.size <;> decide

/-- The memory of a simulator started without options. -/
def defaultMemory : Memory := ⟨0x20000000#32, 0x08000000#32, fun _ => 0#8, 0#64, Memory.noRecord⟩

/-- Stores of three sizes into one word, and what is loaded back. -/
def mixedOps : List DataOp :=
  [.store .word 0x20000010#32 0x11223344#32, .store .byte 0x20000011#32 0xffffff99#32,
    .store .half 0x20000012#32 0x5555aabb#32, .load .word false 0x20000010#32,
    .load .byte false 0x20000011#32, .load .half true 0x20000012#32]

theorem lsu_memory_refines_mixed :
    (∀ op ∈ mixedOps, op.Inside defaultMemory) ∧
    (lsuRun defaultMemory mixedOps).1 = [0xaabb9944#32, 0xffffff99#32, 0x0000aabb#32] := by
  have hin : ∀ op ∈ mixedOps, op.Inside defaultMemory := by
    intro op hop
    simp only [mixedOps, List.mem_cons, List.not_mem_nil, or_false] at hop
    rcases hop with rfl | rfl | rfl | rfl | rfl | rfl <;>
      exact ⟨by decide, by decide, by decide, by decide⟩
  refine ⟨hin, ?_⟩
  rw [(lsu_memory_refines defaultMemory mixedOps hin).1]
  decide +kernel

end Sim
