import Mathlib.Logic.Function.Basic

/-!
# Guest memory of the reference emulator

`nemu/src/memory` and the devices of the shared reference build
(`nemu/src/device`): the region table, the MMIO maps with their callbacks, and
the guard `vaddr_access_ok` in front of them. A failing `Assert`, `assert` or
`panic` is an `Abort`; everything else is a result with the next memory.
-/

namespace Nemu

set_option autoImplicit false

/-- The devices of a build with `CONFIG_DEVICE`. -/
structure DeviceConfig where
  hasSerial : Bool
  hasTimer : Bool
  deriving Repr, DecidableEq

/-- The build options the memory depends on; `devices` is `none` without
`CONFIG_DEVICE`. -/
structure Config where
  memSchemeNpc : Bool
  targetShare : Bool
  devices : Option DeviceConfig
  deriving Repr, DecidableEq

/-- The shared reference build of the differential test. -/
def refConfig : Config := ⟨false, true, some ⟨true, true⟩⟩

def configMbase : BitVec 32 := 0x80000000#32
def configMsize : BitVec 32 := 0x08000000#32
def configSerialMmio : BitVec 32 := 0xa00003f8#32
def configRtcMmio : BitVec 32 := 0xa0000048#32

inductive RegionId where
  | pmem | mrom | sram
  deriving Repr, DecidableEq

inductive Device where
  | serial | rtc | npcUart | npcClint
  deriving Repr, DecidableEq

/-- The failing check that ends the emulator. -/
inductive Abort where
  | notBacked (addr : BitVec 32)
  | notWritable (region : RegionId) (addr : BitVec 32)
  | outOfBound (addr : BitVec 32)
  | hostLen (len : Nat)
  | mapLen (len : Nat)
  | unmapped (addr : BitVec 32)
  | mapBound (device : Device) (addr : BitVec 32)
  | serialLen (len : Nat)
  | serialRead
  | serialOffset (offset : BitVec 32)
  | rtcOffset (offset : BitVec 32)
  | uartRange (offset : BitVec 32) (len : Nat)
  | clintLen (len : Nat)
  deriving Repr, DecidableEq

structure MMIOReplayRecord where
  valid : Bool
  isWrite : Bool
  addr : BitVec 32
  len : Nat
  wmask : BitVec 8
  wdata : BitVec 32
  rdata : BitVec 32
  deriving Repr, DecidableEq

abbrev Bytes := Nat → BitVec 8

/-- The host arrays behind the regions and the device spaces, the replay record
and what the devices have printed. -/
structure Memory where
  host : RegionId → Bytes
  space : Device → Bytes
  mmioReplay : MMIOReplayRecord
  mmioReplayMismatch : Bool
  nrGuestInst : BitVec 64
  output : List (BitVec 8)

/-! ## Host accesses -/

def loadLe (p : Bytes) (offset len : Nat) : BitVec 32 :=
  (List.range len).foldl (fun data i => data ||| (p (offset + i)).setWidth 32 <<< (i * 8)) 0#32

def storeLe (p : Bytes) (offset len : Nat) (data : BitVec 32) : Bytes := fun k =>
  if offset ≤ k ∧ k < offset + len then (data >>> ((k - offset) * 8)).setWidth 8 else p k

def hostRead (p : Bytes) (offset len : Nat) : Except Abort (BitVec 32) :=
  match len with
  | 1 => .ok ((p offset).setWidth 32)
  | 2 => .ok ((p (offset + 1) ++ p offset).setWidth 32)
  | 4 => .ok (p (offset + 3) ++ p (offset + 2) ++ p (offset + 1) ++ p offset)
  | _ => .error (.hostLen len)

def hostWrite (p : Bytes) (offset len : Nat) (data : BitVec 32) : Except Abort Bytes :=
  match len with
  | 1 => .ok (storeLe p offset 1 data)
  | 2 => .ok (storeLe p offset 2 data)
  | 4 => .ok (storeLe p offset 4 data)
  | _ => .error (.hostLen len)

namespace Memory

def setHost (m : Memory) (r : RegionId) (p : Bytes) : Memory :=
  { m with host := Function.update m.host r p }

def setSpace (m : Memory) (d : Device) (p : Bytes) : Memory :=
  { m with space := Function.update m.space d p }

end Memory

/-! ## Regions -/

structure MemRegion where
  id : RegionId
  base : BitVec 32
  size : BitVec 32
  writable : Bool
  deriving Repr, DecidableEq

def memRegions (cfg : Config) : List MemRegion :=
  [if cfg.memSchemeNpc then ⟨.pmem, configMbase, 0x01000000#32, true⟩
    else ⟨.pmem, configMbase, configMsize, true⟩,
    ⟨.mrom, 0x20000000#32, 0x00001000#32, false⟩,
    ⟨.sram, 0x0f000000#32, 0x00002000#32, true⟩]

def rangeInRegion (region : MemRegion) (addr : BitVec 32) (len : Nat) : Bool :=
  let offset := addr - region.base
  offset < region.size && len ≤ (region.size - offset).toNat

def findMemRegion (cfg : Config) (addr : BitVec 32) (len : Nat) : Option MemRegion :=
  (memRegions cfg).find? fun region => rangeInRegion region addr len

def paddrIsBacked (cfg : Config) (addr : BitVec 32) (len : Nat) : Bool :=
  (findMemRegion cfg addr len).isSome

def pmemRead (cfg : Config) (m : Memory) (addr : BitVec 32) (len : Nat) :
    Except Abort (BitVec 32) :=
  match findMemRegion cfg addr len with
  | none => .error (.notBacked addr)
  | some region => hostRead (m.host region.id) (addr - region.base).toNat len

def pmemWrite (cfg : Config) (m : Memory) (addr : BitVec 32) (len : Nat) (data : BitVec 32) :
    Except Abort Memory :=
  match findMemRegion cfg addr len with
  | none => .error (.notBacked addr)
  | some region =>
    if region.writable then
      (hostWrite (m.host region.id) (addr - region.base).toNat len data).map (m.setHost region.id)
    else .error (.notWritable region.id addr)

/-! ## Devices -/

/-- `replay_matches`: a mismatch is recorded and drops the record. -/
def replayMatches (cfg : Config) (m : Memory) (addr : BitVec 32) (len : Nat) (isWrite : Bool)
    (data : BitVec 32) : Bool × Memory :=
  if !cfg.targetShare then (false, m)
  else if !m.mmioReplay.valid then (false, { m with mmioReplayMismatch := true })
  else if m.mmioReplay.addr ≠ addr ∨ m.mmioReplay.len ≠ len ∨ m.mmioReplay.isWrite ≠ isWrite then
    (false, { m with mmioReplayMismatch := true, mmioReplay.valid := false })
  else if isWrite && m.mmioReplay.wdata ≠ data then
    (false, { m with mmioReplayMismatch := true, mmioReplay.valid := false })
  else (true, m)

def consumeReplay (cfg : Config) (m : Memory) : Memory :=
  if cfg.targetShare then { m with mmioReplay.valid := false } else m

def serialIoHandler (m : Memory) (offset : BitVec 32) (len : Nat) (isWrite : Bool) :
    Except Abort Memory :=
  if len ≠ 1 then .error (.serialLen len)
  else if offset = 0#32 then
    if isWrite then .ok { m with output := m.output ++ [m.space .serial 0] }
    else .error .serialRead
  else .error (.serialOffset offset)

def rtcIoHandler (m : Memory) (offset : BitVec 32) (isWrite : Bool) : Except Abort Memory :=
  if offset = 0#32 ∨ offset = 4#32 then
    if isWrite then .ok m
    else
      let us := m.nrGuestInst / 100#64
      .ok (m.setSpace .rtc (storeLe (storeLe (m.space .rtc) 0 4 (us.extractLsb' 0 32)) 4 4
        (us.extractLsb' 32 32)))
  else .error (.rtcOffset offset)

def npcUartBase : BitVec 32 := 0x10000000#32
def npcUartSize : BitVec 32 := 0x20#32
def npcClintBase : BitVec 32 := 0x02000000#32
def npcClintSize : BitVec 32 := 0x00010000#32
def npcClintMsip : BitVec 32 := 0x0000#32
def npcClintMtimecmp : BitVec 32 := 0x4000#32
def npcClintMtime : BitVec 32 := 0xbff8#32

def npcUartIoHandler (cfg : Config) (m : Memory) (offset : BitVec 32) (len : Nat)
    (isWrite : Bool) : Except Abort Memory :=
  if offset < npcUartSize ∧ offset + BitVec.ofNat 32 len ≤ npcUartSize then
    let addr := npcUartBase + offset
    let space := m.space .npcUart
    if isWrite then
      let data := loadLe space offset.toNat len
      match replayMatches cfg m addr len true data with
      | (true, m) => .ok (consumeReplay cfg m)
      | (false, m) =>
        if !cfg.targetShare && offset = 0#32 && len = 1 then
          .ok { m with output := m.output ++ [data.setWidth 8] }
        else .ok m
    else
      match replayMatches cfg m addr len false 0#32 with
      | (true, m) =>
        .ok (consumeReplay cfg
          (m.setSpace .npcUart (storeLe space offset.toNat len m.mmioReplay.rdata)))
      | (false, m) => .ok (m.setSpace .npcUart (storeLe space offset.toNat len 0#32))
  else .error (.uartRange offset len)

def clintRegAccess (offset : BitVec 32) (len : Nat) : Bool :=
  let last := offset + BitVec.ofNat 32 len
  (offset < npcClintMsip + 4#32 && last > npcClintMsip) ||
    (offset < npcClintMtimecmp + 8#32 && last > npcClintMtimecmp) ||
    (offset < npcClintMtime + 8#32 && last > npcClintMtime)

def updateMtime (m : Memory) : Memory :=
  let mtime := npcClintMtime.toNat
  m.setSpace .npcClint (storeLe (storeLe (m.space .npcClint) mtime 4
    (m.nrGuestInst.extractLsb' 0 32)) (mtime + 4) 4 (m.nrGuestInst.extractLsb' 32 32))

def npcClintIoHandler (cfg : Config) (m : Memory) (offset : BitVec 32) (len : Nat)
    (isWrite : Bool) : Except Abort Memory :=
  if ¬ (1 ≤ len ∧ len ≤ 8) then .error (.clintLen len)
  else
    let addr := npcClintBase + offset
    let space := m.space .npcClint
    if !clintRegAccess offset len then
      if isWrite then .ok m else .ok (m.setSpace .npcClint (storeLe space offset.toNat len 0#32))
    else if isWrite then
      match replayMatches cfg m addr len true (loadLe space offset.toNat len) with
      | (true, m) => .ok (consumeReplay cfg m)
      | (false, m) => .ok m
    else
      match replayMatches cfg m addr len false 0#32 with
      | (true, m) =>
        .ok (consumeReplay cfg
          (m.setSpace .npcClint (storeLe space offset.toNat len m.mmioReplay.rdata)))
      | (false, m) => .ok (updateMtime m)

structure IOMap where
  low : BitVec 32
  high : BitVec 32
  device : Device
  deriving Repr, DecidableEq

/-- `add_mmio_map`. -/
def mmioMap (addr len : BitVec 32) (device : Device) : IOMap := ⟨addr, addr + len - 1#32, device⟩

/-- The maps in the order `init_device` adds them. -/
def maps (dev : DeviceConfig) : List IOMap :=
  (if dev.hasSerial then [mmioMap configSerialMmio 8#32 .serial] else []) ++
    (if dev.hasTimer then [mmioMap configRtcMmio 8#32 .rtc] else []) ++
    [mmioMap npcUartBase npcUartSize .npcUart, mmioMap npcClintBase npcClintSize .npcClint]

def mapInside (map : IOMap) (addr : BitVec 32) : Bool := map.low ≤ addr && addr ≤ map.high

def fetchMmioMap (dev : DeviceConfig) (addr : BitVec 32) : Option IOMap :=
  (maps dev).find? fun map => mapInside map addr

def callback (cfg : Config) (m : Memory) (device : Device) (offset : BitVec 32) (len : Nat)
    (isWrite : Bool) : Except Abort Memory :=
  match device with
  | .serial => serialIoHandler m offset len isWrite
  | .rtc => rtcIoHandler m offset isWrite
  | .npcUart => npcUartIoHandler cfg m offset len isWrite
  | .npcClint => npcClintIoHandler cfg m offset len isWrite

/-- The checks of `map_read` and `map_write` before the access. -/
def checkBound (len : Nat) (map : Option IOMap) (addr : BitVec 32) : Except Abort IOMap :=
  if 1 ≤ len ∧ len ≤ 8 then
    match map with
    | none => .error (.unmapped addr)
    | some map => if mapInside map addr then .ok map else .error (.mapBound map.device addr)
  else .error (.mapLen len)

def mapRead (cfg : Config) (m : Memory) (addr : BitVec 32) (len : Nat) (map : Option IOMap) :
    Except Abort (BitVec 32 × Memory) := do
  let map ← checkBound len map addr
  let offset := addr - map.low
  let m ← callback cfg m map.device offset len false
  let ret ← hostRead (m.space map.device) offset.toNat len
  return (ret, m)

def mapWrite (cfg : Config) (m : Memory) (addr : BitVec 32) (len : Nat) (data : BitVec 32)
    (map : Option IOMap) : Except Abort Memory := do
  let map ← checkBound len map addr
  let offset := addr - map.low
  let space ← hostWrite (m.space map.device) offset.toNat len data
  callback cfg (m.setSpace map.device space) map.device offset len true

/-! ## Physical and virtual accesses -/

def paddrRead (cfg : Config) (m : Memory) (addr : BitVec 32) (len : Nat) :
    Except Abort (BitVec 32 × Memory) :=
  if paddrIsBacked cfg addr len then (pmemRead cfg m addr len).map fun v => (v, m)
  else
    match cfg.devices with
    | some dev => mapRead cfg m addr len (fetchMmioMap dev addr)
    | none => .error (.outOfBound addr)

def paddrWrite (cfg : Config) (m : Memory) (addr : BitVec 32) (len : Nat) (data : BitVec 32) :
    Except Abort Memory :=
  if paddrIsBacked cfg addr len then pmemWrite cfg m addr len data
  else
    match cfg.devices with
    | some dev => mapWrite cfg m addr len data (fetchMmioMap dev addr)
    | none => .error (.outOfBound addr)

/-- A window test of the guard, with its sum of 32 bits. -/
def windowOk (base limit addr : BitVec 32) (len : Nat) : Bool :=
  base ≤ addr && addr + BitVec.ofNat 32 len ≤ limit

def nativeDeviceAccessOk (cfg : Config) (addr : BitVec 32) (len : Nat) : Bool :=
  match cfg.devices with
  | some dev =>
    (dev.hasSerial && windowOk configSerialMmio (configSerialMmio + 8#32) addr len) ||
      (dev.hasTimer && windowOk configRtcMmio (configRtcMmio + 8#32) addr len)
  | none => false

def vaddrAccessOk (cfg : Config) (addr : BitVec 32) (len : Nat) : Bool :=
  paddrIsBacked cfg addr len || nativeDeviceAccessOk cfg addr len ||
    windowOk 0x10000000#32 0x10000020#32 addr len ||
    windowOk 0x02000000#32 0x02010000#32 addr len

def vaddrIfetch (cfg : Config) (m : Memory) (addr : BitVec 32) (len : Nat) :
    Except Abort (BitVec 32 × Memory) := paddrRead cfg m addr len

def vaddrRead (cfg : Config) (m : Memory) (addr : BitVec 32) (len : Nat) :
    Except Abort (BitVec 32 × Memory) := paddrRead cfg m addr len

def vaddrWrite (cfg : Config) (m : Memory) (addr : BitVec 32) (len : Nat) (data : BitVec 32) :
    Except Abort Memory := paddrWrite cfg m addr len data

end Nemu
