import AiOsoc.Nemu.Inst
import Mathlib.Algebra.Group.Nat.Defs

/-!
# Guarded accesses

`decode_exec` asks `vaddr_access_ok` before a load or a store and otherwise
raises an exception. The guard adds in 32 bits and ignores who may write and
what a device accepts; where it agrees with the access path no check fails.
-/

namespace Nemu

set_option autoImplicit false

theorem find?_eq_some_of_unique {α : Type} {l : List α} {p : α → Bool} {a : α} (ha : a ∈ l)
    (hp : p a = true) (hu : ∀ b ∈ l, p b = true → b = a) : l.find? p = some a := by
  cases h : l.find? p with
  | none => exact absurd hp (List.find?_eq_none.mp h a ha)
  | some b => rw [hu b (List.mem_of_find?_eq_some h) (List.find?_some h)]

/-- The bytes of an access lie between `base` and `base + size`; the sum does
not wrap. -/
def Within (base size : Nat) (addr : BitVec 32) (len : Nat) : Prop :=
  base ≤ addr.toNat ∧ addr.toNat + len ≤ base + size

instance (base size : Nat) (addr : BitVec 32) (len : Nat) : Decidable (Within base size addr len) :=
  inferInstanceAs (Decidable (_ ∧ _))

section Windows
variable {cfg : Config} {dev : DeviceConfig} {addr : BitVec 32} {len : Nat}

theorem windowOk_iff (base limit : BitVec 32) (hn : addr.toNat + len < 2 ^ 32) :
    windowOk base limit addr len = true ↔
      base.toNat ≤ addr.toNat ∧ addr.toNat + len ≤ limit.toNat := by
  simp only [windowOk, Bool.and_eq_true, decide_eq_true_eq, BitVec.le_def, BitVec.toNat_add,
    BitVec.toNat_ofNat]
  rw [Nat.mod_eq_of_lt (show len < 2 ^ 32 by omega), Nat.mod_eq_of_lt hn]

/-- A sum that wraps is small, so the guard accepts the access. -/
theorem vaddrAccessOk_of_wrap (h0 : 0 < len) (h4 : len ≤ 4) (hn : 2 ^ 32 ≤ addr.toNat + len) :
    vaddrAccessOk cfg addr len = true := by
  have hlt := addr.isLt
  have hw : windowOk 0x10000000#32 0x10000020#32 addr len = true := by
    simp only [windowOk, Bool.and_eq_true, decide_eq_true_eq, BitVec.le_def, BitVec.toNat_add,
      BitVec.toNat_ofNat]
    omega
  simp [vaddrAccessOk, hw]

theorem mem_memRegions {region : MemRegion} (h : region ∈ memRegions cfg) :
    (region.id = .pmem ∧ region.base = configMbase ∧ region.size.toNat ≤ 0x08000000 ∧
      region.writable = true) ∨
    region = ⟨.mrom, 0x20000000#32, 0x00001000#32, false⟩ ∨
    region = ⟨.sram, 0x0f000000#32, 0x00002000#32, true⟩ := by
  simp only [memRegions, List.mem_cons, List.not_mem_nil, or_false] at h
  rcases h with rfl | h | h
  · refine Or.inl ?_
    split <;> exact ⟨rfl, rfl, by decide, rfl⟩
  · exact Or.inr (Or.inl h)
  · exact Or.inr (Or.inr h)

theorem rangeInRegion_iff {region : MemRegion} (hr : region ∈ memRegions cfg) (h0 : 0 < len) :
    rangeInRegion region addr len = true ↔
      Within region.base.toNat region.size.toNat addr len := by
  have hlt := addr.isLt
  have hb := region.base.isLt
  have hfit : region.base.toNat + region.size.toNat ≤ 2 ^ 32 := by
    rcases mem_memRegions hr with ⟨-, hbase, hsize, -⟩ | rfl | rfl
    · rw [hbase]
      simp only [configMbase, BitVec.toNat_ofNat]
      omega
    · decide
    · decide
  simp only [rangeInRegion, Within, Bool.and_eq_true, decide_eq_true_eq, BitVec.lt_def,
    BitVec.toNat_sub]
  omega

theorem region_unique {a b : MemRegion} (ha : a ∈ memRegions cfg) (hb : b ∈ memRegions cfg)
    (h0 : 0 < len) (hwa : Within a.base.toNat a.size.toNat addr len)
    (hwb : Within b.base.toNat b.size.toNat addr len) : b.writable = a.writable := by
  rcases mem_memRegions ha with ⟨-, hba, hsa, hwa'⟩ | rfl | rfl <;>
    rcases mem_memRegions hb with ⟨-, hbb, hsb, hwb'⟩ | rfl | rfl <;>
    simp_all [Within, configMbase] <;> omega

/-- Where the access path finds a region, and whether it may be written. -/
theorem findMemRegion_of_within {region : MemRegion} (hr : region ∈ memRegions cfg)
    (h0 : 0 < len) (hw : Within region.base.toNat region.size.toNat addr len) :
    ∃ found, findMemRegion cfg addr len = some found ∧ found.writable = region.writable := by
  have hp := (rangeInRegion_iff hr h0).mpr hw
  cases h : findMemRegion cfg addr len with
  | none => exact absurd hp (List.find?_eq_none.mp h region hr)
  | some found =>
    have hm := List.mem_of_find?_eq_some h
    have hp' := List.find?_some (p := fun region => rangeInRegion region addr len) h
    have hf := (rangeInRegion_iff hm h0).mp hp'
    exact ⟨found, rfl, region_unique hr hm h0 hw hf⟩

theorem paddrIsBacked_iff (h0 : 0 < len) : paddrIsBacked cfg addr len = true ↔
    ∃ region ∈ memRegions cfg, Within region.base.toNat region.size.toNat addr len := by
  simp only [paddrIsBacked, findMemRegion, List.find?_isSome]
  constructor
  · rintro ⟨region, hr, hp⟩
    exact ⟨region, hr, (rangeInRegion_iff hr h0).mp hp⟩
  · rintro ⟨region, hr, hw⟩
    exact ⟨region, hr, (rangeInRegion_iff hr h0).mpr hw⟩

/-- The bytes of an access lie in the window of a map. -/
def InMap (map : IOMap) (addr : BitVec 32) (len : Nat) : Prop :=
  map.low.toNat ≤ addr.toNat ∧ addr.toNat + len ≤ map.high.toNat + 1

theorem mem_maps {map : IOMap} (h : map ∈ maps dev) :
    (dev.hasSerial = true ∧ map = ⟨0xa00003f8#32, 0xa00003ff#32, .serial⟩) ∨
    (dev.hasTimer = true ∧ map = ⟨0xa0000048#32, 0xa000004f#32, .rtc⟩) ∨
    map = ⟨0x10000000#32, 0x1000001f#32, .npcUart⟩ ∨
    map = ⟨0x02000000#32, 0x0200ffff#32, .npcClint⟩ := by
  simp only [maps, List.mem_append, List.mem_cons, List.not_mem_nil, or_false] at h
  rcases h with (h | h) | h | h
  · split at h
    · rename_i hs
      exact Or.inl ⟨hs, List.mem_singleton.mp h⟩
    · exact absurd h List.not_mem_nil
  · split at h
    · rename_i ht
      exact Or.inr (Or.inl ⟨ht, List.mem_singleton.mp h⟩)
    · exact absurd h List.not_mem_nil
  · exact Or.inr (Or.inr (Or.inl h))
  · exact Or.inr (Or.inr (Or.inr h))

theorem mapInside_iff (map : IOMap) : mapInside map addr = true ↔
    map.low.toNat ≤ addr.toNat ∧ addr.toNat ≤ map.high.toNat := by
  simp only [mapInside, Bool.and_eq_true, decide_eq_true_eq, BitVec.le_def]

theorem map_unique {a b : IOMap} (ha : a ∈ maps dev) (hb : b ∈ maps dev)
    (hia : mapInside a addr = true) (hib : mapInside b addr = true) : b = a := by
  rw [mapInside_iff] at hia hib
  rcases mem_maps ha with ⟨-, rfl⟩ | ⟨-, rfl⟩ | rfl | rfl <;>
    rcases mem_maps hb with ⟨-, rfl⟩ | ⟨-, rfl⟩ | rfl | rfl <;>
    simp only [BitVec.toNat_ofNat] at * <;> omega

theorem fetchMmioMap_eq {map : IOMap} (hm : map ∈ maps dev) (hi : mapInside map addr = true) :
    fetchMmioMap dev addr = some map :=
  find?_eq_some_of_unique hm hi fun _ hb hib => map_unique hm hb hi hib

/-- The device windows are apart from the memory regions. -/
theorem not_backed_of_inMap {map : IOMap} (hm : map ∈ maps dev) (h0 : 0 < len)
    (hi : InMap map addr len) : paddrIsBacked cfg addr len = false := by
  rw [Bool.eq_false_iff]
  intro hb
  obtain ⟨region, hr, hw⟩ := (paddrIsBacked_iff h0).mp hb
  obtain ⟨h1, h2⟩ := hi
  rcases mem_memRegions hr with ⟨-, hbase, hsize, -⟩ | rfl | rfl <;>
    rcases mem_maps hm with ⟨-, rfl⟩ | ⟨-, rfl⟩ | rfl | rfl <;>
    simp_all [Within, configMbase] <;> omega

end Windows

/-! ## The access path -/

section Path
variable {cfg : Config} {m : Memory} {addr : BitVec 32} {len : Nat}

theorem hostRead_ok (hl : len = 1 ∨ len = 2 ∨ len = 4) (p : Bytes) (offset : Nat) :
    ∃ v, hostRead p offset len = .ok v := by
  rcases hl with rfl | rfl | rfl <;> exact ⟨_, rfl⟩

theorem hostWrite_ok (hl : len = 1 ∨ len = 2 ∨ len = 4) (p : Bytes) (offset : Nat)
    (data : BitVec 32) : ∃ q, hostWrite p offset len data = .ok q := by
  rcases hl with rfl | rfl | rfl <;> exact ⟨_, rfl⟩

theorem paddrRead_backed (hl : len = 1 ∨ len = 2 ∨ len = 4)
    (hb : paddrIsBacked cfg addr len = true) : ∃ r, paddrRead cfg m addr len = .ok r := by
  obtain ⟨region, hr⟩ := Option.isSome_iff_exists.mp hb
  obtain ⟨v, hv⟩ := hostRead_ok hl (m.host region.id) (addr - region.base).toNat
  exact ⟨(v, m), by simp [paddrRead, hb, pmemRead, hr, hv, Except.map, -BitVec.toNat_sub]⟩

theorem paddrWrite_backed_iff (hl : len = 1 ∨ len = 2 ∨ len = 4) {region : MemRegion}
    (hr : findMemRegion cfg addr len = some region) (data : BitVec 32) :
    (∃ m', paddrWrite cfg m addr len data = .ok m') ↔ region.writable = true := by
  have hb : paddrIsBacked cfg addr len = true := by simp [paddrIsBacked, hr]
  obtain ⟨q, hq⟩ := hostWrite_ok hl (m.host region.id) (addr - region.base).toNat data
  cases hw : region.writable <;>
    simp [paddrWrite, hb, pmemWrite, hr, hw, hq, Except.map, -BitVec.toNat_sub]

/-- What a device accepts. -/
def accepts : Device → BitVec 32 → Nat → Bool → Prop
  | .serial, offset, len, isWrite => len = 1 ∧ offset = 0#32 ∧ isWrite = true
  | .rtc, offset, _, _ => offset = 0#32 ∨ offset = 4#32
  | .npcUart, offset, len, _ => offset < npcUartSize ∧ offset + BitVec.ofNat 32 len ≤ npcUartSize
  | .npcClint, _, len, _ => 1 ≤ len ∧ len ≤ 8

theorem callback_ok_iff (cfg : Config) (m : Memory) (device : Device) (offset : BitVec 32)
    (isWrite : Bool) :
    (∃ m', callback cfg m device offset len isWrite = .ok m') ↔
      accepts device offset len isWrite := by
  cases device with
  | serial =>
    simp only [callback, serialIoHandler, accepts]
    by_cases h1 : len = 1 <;> by_cases h2 : offset = 0#32 <;> cases isWrite <;> simp [h1, h2]
  | rtc =>
    simp only [callback, rtcIoHandler, accepts]
    by_cases h : offset = 0#32 ∨ offset = 4#32 <;> cases isWrite <;> simp [h]
  | npcUart =>
    simp only [callback, npcUartIoHandler, accepts]
    by_cases h : offset < npcUartSize ∧ offset + BitVec.ofNat 32 len ≤ npcUartSize
    · rw [if_pos h]
      refine iff_of_true ?_ h
      split
      · split
        · exact ⟨_, rfl⟩
        · split <;> exact ⟨_, rfl⟩
      · split <;> exact ⟨_, rfl⟩
    · rw [if_neg h]
      simp [h]
  | npcClint =>
    simp only [callback, npcClintIoHandler, accepts]
    by_cases h : 1 ≤ len ∧ len ≤ 8
    · rw [if_neg (not_not.mpr h)]
      refine iff_of_true ?_ h
      split
      · split <;> exact ⟨_, rfl⟩
      · split
        · split <;> exact ⟨_, rfl⟩
        · split <;> exact ⟨_, rfl⟩
    · rw [if_pos h]
      simp [h]

variable {dev : DeviceConfig} {map : IOMap} (hdev : cfg.devices = some dev) (hm : map ∈ maps dev)
  (hl : len = 1 ∨ len = 2 ∨ len = 4) (hi : InMap map addr len)
include hdev hm hl hi

omit hdev in
theorem checkBound_inMap : checkBound len (fetchMmioMap dev addr) addr = .ok map := by
  have hin : mapInside map addr = true := by
    rw [mapInside_iff]
    obtain ⟨h1, h2⟩ := hi
    omega
  rw [fetchMmioMap_eq hm hin, checkBound, if_pos (by omega)]
  exact if_pos hin

theorem paddrRead_inMap_iff :
    (∃ r, paddrRead cfg m addr len = .ok r) ↔ accepts map.device (addr - map.low) len false := by
  have hck := checkBound_inMap hm hl hi
  have hnb : paddrIsBacked cfg addr len = false := not_backed_of_inMap hm (by omega) hi
  rw [← callback_ok_iff cfg m, paddrRead, if_neg (by simp [hnb]), hdev]
  simp only [mapRead, hck, bind, Except.bind, pure, Except.pure]
  cases hcb : callback cfg m map.device (addr - map.low) len false with
  | error e => simp
  | ok m' =>
    obtain ⟨v, hv⟩ := hostRead_ok hl (m'.space map.device) (addr - map.low).toNat
    simp [hv, -BitVec.toNat_sub]

theorem paddrWrite_inMap_iff (data : BitVec 32) :
    (∃ m', paddrWrite cfg m addr len data = .ok m') ↔
      accepts map.device (addr - map.low) len true := by
  have hck := checkBound_inMap hm hl hi
  have hnb : paddrIsBacked cfg addr len = false := not_backed_of_inMap hm (by omega) hi
  obtain ⟨q, hq⟩ := hostWrite_ok hl (m.space map.device) (addr - map.low).toNat data
  rw [← callback_ok_iff cfg (m.setSpace map.device q), paddrWrite,
    if_neg (by simp [hnb]), hdev]
  simp only [mapWrite, hck, hq, bind, Except.bind]

end Path

/-! ## Guard and access path -/

inductive AccessKind where
  | load | store
  deriving Repr, DecidableEq

/-- The access that `decode_exec` makes after the guard comes to an end. -/
def Completes (cfg : Config) (m : Memory) (kind : AccessKind) (addr : BitVec 32) (len : Nat)
    (data : BitVec 32) : Prop :=
  match kind with
  | .load => ∃ r, paddrRead cfg m addr len = .ok r
  | .store => ∃ m', paddrWrite cfg m addr len data = .ok m'

/-- The bytes lie in one memory region or in one registered device window. -/
def InOneWindow (cfg : Config) (addr : BitVec 32) (len : Nat) : Prop :=
  (∃ region ∈ memRegions cfg, Within region.base.toNat region.size.toNat addr len) ∨
    ∃ dev, cfg.devices = some dev ∧ ∃ map ∈ maps dev, InMap map addr len

/-- The body of a load or store instruction. -/
def bodyOf (kind : AccessKind) (e : Exec) (cfg : Config) (o : Operands) (len : Nat)
    (ext : BitVec 32 → BitVec 32) : Except Abort Exec :=
  match kind with
  | .load => e.load cfg o len ext
  | .store => e.store cfg o len

/-- The guard is right about an access: what it lets through lies in one window
and completes, so the instruction completes or raises its exception. -/
structure AccessSafe (cfg : Config) (m : Memory) (kind : AccessKind) (addr : BitVec 32) (len : Nat)
    (data : BitVec 32) : Prop where
  contained : vaddrAccessOk cfg addr len = true → InOneWindow cfg addr len
  completes : vaddrAccessOk cfg addr len = true → Completes cfg m kind addr len data
  instruction : ∀ e o ext, e.m.mem = m → o.src1 + o.imm = addr → o.src2 = data →
    ∃ e', bodyOf kind e cfg o len ext = .ok e'

/-- The accesses the guard is right about: they end below the top of the address
space, do not store to the boot ROM, and use a device as it allows. -/
structure Supported (cfg : Config) (kind : AccessKind) (addr : BitVec 32) (len : Nat) : Prop where
  below : addr.toNat + len < 2 ^ 32
  rom : kind = .store → ¬ Within 0x20000000 0x1000 addr len
  serial : ∀ dev, cfg.devices = some dev → dev.hasSerial = true → Within 0xa00003f8 8 addr len →
    kind = .store ∧ len = 1 ∧ addr = configSerialMmio
  rtc : ∀ dev, cfg.devices = some dev → dev.hasTimer = true → Within 0xa0000048 8 addr len →
    addr = configRtcMmio ∨ addr = configRtcMmio + 4#32
  device : cfg.devices = none →
    ¬ Within 0x10000000 0x20 addr len ∧ ¬ Within 0x02000000 0x10000 addr len

section Safe
variable {cfg : Config} {m : Memory} {kind : AccessKind} {addr : BitVec 32} {len : Nat}
  {data : BitVec 32}

theorem instruction_of_completes
    (h : vaddrAccessOk cfg addr len = true → Completes cfg m kind addr len data) {e : Exec}
    {o : Operands} (ext : BitVec 32 → BitVec 32) (hm : e.m.mem = m) (ha : o.src1 + o.imm = addr)
    (hd : o.src2 = data) : ∃ e', bodyOf kind e cfg o len ext = .ok e' := by
  subst hm ha hd
  cases kind with
  | load =>
    simp only [bodyOf, Exec.load, vaddrRead]
    split
    · rename_i hok
      obtain ⟨r, hr⟩ := h hok
      exact ⟨_, by rw [hr]; rfl⟩
    · exact ⟨_, rfl⟩
  | store =>
    simp only [bodyOf, Exec.store, vaddrWrite]
    split
    · rename_i hok
      obtain ⟨r, hr⟩ := h hok
      exact ⟨_, by rw [hr]; rfl⟩
    · exact ⟨_, rfl⟩

/-- Every window ends well below the top of the address space. -/
theorem InOneWindow.below (h : InOneWindow cfg addr len) : addr.toNat + len < 2 ^ 32 := by
  rcases h with ⟨region, hr, -, hw⟩ | ⟨dev, -, map, hm, -, hi⟩
  · rcases mem_memRegions hr with ⟨-, hbase, hsize, -⟩ | rfl | rfl
    · rw [hbase] at hw
      simp only [configMbase, BitVec.toNat_ofNat] at hw
      omega
    · simp only [BitVec.toNat_ofNat] at hw
      omega
    · simp only [BitVec.toNat_ofNat] at hw
      omega
  · rcases mem_maps hm with ⟨-, rfl⟩ | ⟨-, rfl⟩ | rfl | rfl <;>
      simp only [BitVec.toNat_ofNat] at hi <;> omega

/-- What the guard accepts, for an access that does not wrap. -/
theorem vaddrAccessOk_iff (cfg : Config) (h0 : 0 < len) (hn : addr.toNat + len < 2 ^ 32) :
    vaddrAccessOk cfg addr len = true ↔
      (∃ region ∈ memRegions cfg, Within region.base.toNat region.size.toNat addr len) ∨
      (∃ dev, cfg.devices = some dev ∧ dev.hasSerial = true ∧ Within 0xa00003f8 8 addr len) ∨
      (∃ dev, cfg.devices = some dev ∧ dev.hasTimer = true ∧ Within 0xa0000048 8 addr len) ∨
      Within 0x10000000 0x20 addr len ∨ Within 0x02000000 0x10000 addr len := by
  have hser := windowOk_iff configSerialMmio (configSerialMmio + 8#32) hn
  have hrtc := windowOk_iff configRtcMmio (configRtcMmio + 8#32) hn
  have huart := windowOk_iff 0x10000000#32 0x10000020#32 hn
  have hclint := windowOk_iff 0x02000000#32 0x02010000#32 hn
  have hnative : nativeDeviceAccessOk cfg addr len = true ↔
      (∃ dev, cfg.devices = some dev ∧ dev.hasSerial = true ∧ Within 0xa00003f8 8 addr len) ∨
      (∃ dev, cfg.devices = some dev ∧ dev.hasTimer = true ∧ Within 0xa0000048 8 addr len) := by
    cases hd : cfg.devices with
    | none => simp [nativeDeviceAccessOk, hd]
    | some dev =>
      simp only [nativeDeviceAccessOk, hd, Bool.or_eq_true, Bool.and_eq_true, hser, hrtc]
      simp [Within, configSerialMmio, configRtcMmio]
  simp only [vaddrAccessOk, Bool.or_eq_true, paddrIsBacked_iff h0, hnative, huart, hclint]
  simp [Within, or_assoc]

theorem completes_inMap_iff {dev : DeviceConfig} {map : IOMap} (hdev : cfg.devices = some dev)
    (hm : map ∈ maps dev) (hl : len = 1 ∨ len = 2 ∨ len = 4) (hi : InMap map addr len) :
    Completes cfg m kind addr len data ↔
      accepts map.device (addr - map.low) len (kind = .store) := by
  cases kind with
  | load => exact paddrRead_inMap_iff hdev hm hl hi
  | store => exact paddrWrite_inMap_iff hdev hm hl hi data

theorem completes_backed_iff (hl : len = 1 ∨ len = 2 ∨ len = 4) {region : MemRegion}
    (hr : region ∈ memRegions cfg) (hw : Within region.base.toNat region.size.toNat addr len) :
    Completes cfg m kind addr len data ↔ (kind = .store → region.writable = true) := by
  have h0 : 0 < len := by omega
  cases kind with
  | load =>
    have hread : ∃ r, paddrRead cfg m addr len = .ok r :=
      paddrRead_backed hl ((paddrIsBacked_iff h0).mpr ⟨region, hr, hw⟩)
    exact iff_of_true hread (by simp)
  | store =>
    obtain ⟨found, hf, hwr⟩ := findMemRegion_of_within hr h0 hw
    have hwrite : Completes cfg m .store addr len data ↔ found.writable = true :=
      paddrWrite_backed_iff hl hf data
    rw [← hwr, hwrite]
    simp

section Maps
variable {dev : DeviceConfig}

theorem serial_mem (h : dev.hasSerial = true) :
    mmioMap configSerialMmio 8#32 .serial ∈ maps dev := by
  simp [maps, h]

theorem rtc_mem (h : dev.hasTimer = true) : mmioMap configRtcMmio 8#32 .rtc ∈ maps dev := by
  simp [maps, h]

theorem uart_mem (dev : DeviceConfig) : mmioMap npcUartBase npcUartSize .npcUart ∈ maps dev := by
  simp [maps]

theorem clint_mem (dev : DeviceConfig) :
    mmioMap npcClintBase npcClintSize .npcClint ∈ maps dev := by
  simp [maps]

theorem inMap_of_within {base size : BitVec 32} (device : Device) {b s : Nat} (hb : base.toNat = b)
    (hs : size.toNat = s) (hpos : 0 < s) (hfit : b + s < 2 ^ 32) (h : Within b s addr len) :
    InMap (mmioMap base size device) addr len := by
  obtain ⟨h1, h2⟩ := h
  constructor
  · simpa [mmioMap, hb] using h1
  · have hhigh : (base + size - 1#32).toNat = b + s - 1 := by
      simp only [BitVec.toNat_sub, BitVec.toNat_add, BitVec.toNat_ofNat, hb, hs]
      omega
    simp only [mmioMap, hhigh]
    omega

end Maps

theorem Supported.safe (h : Supported cfg kind addr len) (hl : len = 1 ∨ len = 2 ∨ len = 4) :
    vaddrAccessOk cfg addr len = true →
      InOneWindow cfg addr len ∧ Completes cfg m kind addr len data := by
  have h0 : 0 < len := by omega
  intro hok
  rcases (vaddrAccessOk_iff cfg h0 h.below).mp hok with ⟨region, hr, hw⟩ | ⟨dev, hdev, hs, hw⟩ |
    ⟨dev, hdev, ht, hw⟩ | hw | hw
  · refine ⟨Or.inl ⟨region, hr, hw⟩, (completes_backed_iff hl hr hw).mpr ?_⟩
    intro hk
    rcases mem_memRegions hr with ⟨-, -, -, hwr⟩ | rfl | rfl
    · exact hwr
    · exact absurd hw (h.rom hk)
    · rfl
  · have hi : InMap (mmioMap configSerialMmio 8#32 .serial) addr len :=
      inMap_of_within .serial rfl rfl (by decide) (by decide) hw
    obtain ⟨hk, h1, ha⟩ := h.serial dev hdev hs hw
    refine ⟨Or.inr ⟨dev, hdev, _, serial_mem hs, hi⟩,
      (completes_inMap_iff hdev (serial_mem hs) hl hi).mpr ⟨h1, ?_, by simp [hk]⟩⟩
    simp [mmioMap, ha]
  · have hi : InMap (mmioMap configRtcMmio 8#32 .rtc) addr len :=
      inMap_of_within .rtc rfl rfl (by decide) (by decide) hw
    refine ⟨Or.inr ⟨dev, hdev, _, rtc_mem ht, hi⟩,
      (completes_inMap_iff hdev (rtc_mem ht) hl hi).mpr ?_⟩
    rcases h.rtc dev hdev ht hw with ha | ha
    · exact Or.inl (by simp [mmioMap, ha])
    · exact Or.inr (by rw [ha]; decide)
  · cases hdev : cfg.devices with
    | none => exact absurd hw (h.device hdev).1
    | some dev =>
      have hi : InMap (mmioMap npcUartBase npcUartSize .npcUart) addr len :=
        inMap_of_within .npcUart rfl rfl (by decide) (by decide) hw
      refine ⟨Or.inr ⟨dev, hdev, _, uart_mem dev, hi⟩,
        (completes_inMap_iff hdev (uart_mem dev) hl hi).mpr ?_⟩
      obtain ⟨h1, h2⟩ := hw
      simp only [mmioMap, accepts, BitVec.lt_def, BitVec.le_def, BitVec.toNat_add,
        BitVec.toNat_sub, BitVec.toNat_ofNat, npcUartBase, npcUartSize]
      omega
  · cases hdev : cfg.devices with
    | none => exact absurd hw (h.device hdev).2
    | some dev =>
      have hi : InMap (mmioMap npcClintBase npcClintSize .npcClint) addr len :=
        inMap_of_within .npcClint rfl rfl (by decide) (by decide) hw
      refine ⟨Or.inr ⟨dev, hdev, _, clint_mem dev, hi⟩,
        (completes_inMap_iff hdev (clint_mem dev) hl hi).mpr ?_⟩
      exact ⟨by omega, by omega⟩

/-- Without devices nothing is behind a device window. -/
theorem not_inOneWindow {dev : DeviceConfig} {map : IOMap} (hdev : cfg.devices = none)
    (hm : map ∈ maps dev) (h0 : 0 < len) (hi : InMap map addr len) :
    ¬ InOneWindow cfg addr len := by
  rintro (hb | ⟨dev', hd, -⟩)
  · have hnb : paddrIsBacked cfg addr len = false := not_backed_of_inMap hm h0 hi
    rw [(paddrIsBacked_iff h0).mpr hb] at hnb
    exact absurd hnb (by decide)
  · rw [hdev] at hd
    exact absurd hd (by simp)

theorem AccessSafe.supported (h : AccessSafe cfg m kind addr len data)
    (hl : len = 1 ∨ len = 2 ∨ len = 4) : Supported cfg kind addr len := by
  have h0 : 0 < len := by omega
  have hn : addr.toNat + len < 2 ^ 32 := by
    by_contra hwrap
    exact hwrap (h.contained (vaddrAccessOk_of_wrap h0 (by omega) (by omega))).below
  refine ⟨hn, ?_, ?_, ?_, ?_⟩
  · intro hk hw
    have hr : (⟨.mrom, 0x20000000#32, 0x00001000#32, false⟩ : MemRegion) ∈ memRegions cfg := by
      simp [memRegions]
    have hc := h.completes ((vaddrAccessOk_iff cfg h0 hn).mpr (Or.inl ⟨_, hr, hw⟩))
    exact absurd ((completes_backed_iff hl hr hw).mp hc hk) (by decide)
  · intro dev hdev hs hw
    have hi : InMap (mmioMap configSerialMmio 8#32 .serial) addr len :=
      inMap_of_within .serial rfl rfl (by decide) (by decide) hw
    have hc := h.completes ((vaddrAccessOk_iff cfg h0 hn).mpr (Or.inr (Or.inl ⟨dev, hdev, hs, hw⟩)))
    obtain ⟨h1, ha, hk⟩ := (completes_inMap_iff hdev (serial_mem hs) hl hi).mp hc
    have hadd := BitVec.sub_add_cancel addr configSerialMmio
    rw [show addr - configSerialMmio = 0#32 from ha, BitVec.zero_add] at hadd
    exact ⟨of_decide_eq_true hk, h1, hadd.symm⟩
  · intro dev hdev ht hw
    have hi : InMap (mmioMap configRtcMmio 8#32 .rtc) addr len :=
      inMap_of_within .rtc rfl rfl (by decide) (by decide) hw
    have hc := h.completes
      ((vaddrAccessOk_iff cfg h0 hn).mpr (Or.inr (Or.inr (Or.inl ⟨dev, hdev, ht, hw⟩))))
    have hadd := BitVec.sub_add_cancel addr configRtcMmio
    rcases (completes_inMap_iff hdev (rtc_mem ht) hl hi).mp hc with ha | ha
    · rw [show addr - configRtcMmio = 0#32 from ha, BitVec.zero_add] at hadd
      exact Or.inl hadd.symm
    · rw [show addr - configRtcMmio = 4#32 from ha, BitVec.add_comm] at hadd
      exact Or.inr hadd.symm
  · intro hdev
    constructor
    · intro hw
      have hok := (vaddrAccessOk_iff cfg h0 hn).mpr (Or.inr (Or.inr (Or.inr (Or.inl hw))))
      have hi : InMap (mmioMap npcUartBase npcUartSize .npcUart) addr len :=
        inMap_of_within .npcUart rfl rfl (by decide) (by decide) hw
      exact not_inOneWindow hdev (uart_mem ⟨false, false⟩) h0 hi (h.contained hok)
    · intro hw
      have hok := (vaddrAccessOk_iff cfg h0 hn).mpr (Or.inr (Or.inr (Or.inr (Or.inr hw))))
      have hi : InMap (mmioMap npcClintBase npcClintSize .npcClint) addr len :=
        inMap_of_within .npcClint rfl rfl (by decide) (by decide) hw
      exact not_inOneWindow hdev (clint_mem ⟨false, false⟩) h0 hi (h.contained hok)

/-- The guard is right about an access exactly when it is supported. -/
theorem access_safe_iff (hl : len = 1 ∨ len = 2 ∨ len = 4) :
    AccessSafe cfg m kind addr len data ↔ Supported cfg kind addr len := by
  constructor
  · intro h
    exact h.supported hl
  · intro h
    have hs : vaddrAccessOk cfg addr len = true →
        InOneWindow cfg addr len ∧ Completes cfg m kind addr len data := h.safe hl
    refine ⟨fun hok => (hs hok).1, fun hok => (hs hok).2, ?_⟩
    intro e o ext hm ha hd
    exact instruction_of_completes (fun hok => (hs hok).2) ext hm ha hd

end Safe

/-- Zeroed memory, for concrete accesses. -/
def blankMemory : Memory :=
  ⟨fun _ _ => 0#8, fun _ _ => 0#8, ⟨false, false, 0#32, 0, 0#8, 0#32, 0#32⟩, false, 0#64, []⟩

/-- A word load from the timer. -/
theorem access_safe_iff_timer :
    AccessSafe refConfig blankMemory .load 0xa000004c#32 4 0#32 := by
  refine (access_safe_iff (by decide)).mpr ⟨by decide, by decide, ?_, ?_, by decide⟩
  · intro dev _ _ hw
    exact absurd hw (by decide)
  · intro dev _ _ _
    exact Or.inr rfl

/-- A byte load from the last address passes the guard and finds no map. -/
theorem access_wraps :
    vaddrAccessOk refConfig 0xffffffff#32 1 = true ∧
      paddrRead refConfig blankMemory 0xffffffff#32 1 = .error (.unmapped 0xffffffff#32) ∧
      vaddrAccessOk refConfig 0x20000000#32 4 = true ∧
      paddrWrite refConfig blankMemory 0x20000000#32 4 0#32 =
        .error (.notWritable .mrom 0x20000000#32) ∧
      ¬ AccessSafe refConfig blankMemory .load 0xffffffff#32 1 0#32 := by
  have hread : paddrRead refConfig blankMemory 0xffffffff#32 1 = .error (.unmapped 0xffffffff#32) :=
    rfl
  refine ⟨by decide, hread, by decide, rfl, ?_⟩
  intro h
  obtain ⟨r, hr⟩ := h.completes (by decide)
  rw [hread] at hr
  exact absurd hr (by simp)

end Nemu
