import AiOsoc.Difftest.Sound

/-!
# Replay of device accesses

What one access of the emulator to the UART or to the CLINT does to the replay
record of `nemu/src/device/npc-dev.c`, and the load and store instructions that
make such an access.
-/

namespace Nemu

set_option autoImplicit false

/-! ## The record -/

/-- What a handler asks `replay_matches`. -/
structure Request where
  isWrite : Bool
  addr : BitVec 32
  len : Nat
  data : BitVec 32

def MMIOReplayRecord.answers (r : MMIOReplayRecord) (q : Request) : Bool :=
  r.valid && r.addr == q.addr && r.len == q.len && r.isWrite == q.isWrite &&
    (!q.isWrite || r.wdata == q.data)

theorem valid_of_answers {r : MMIOReplayRecord} {q : Request} (h : r.answers q = true) :
    r.valid = true := by
  simp only [MMIOReplayRecord.answers, Bool.and_eq_true] at h
  exact h.1.1.1.1

/-- The handler asked: the record is gone, and a wrong answer is remembered. -/
structure Asked (m m' : Memory) (q : Request) : Prop where
  valid : m'.mmioReplay.valid = false
  mismatch : m'.mmioReplayMismatch = (m.mmioReplayMismatch || !m.mmioReplay.answers q)

/-- The handler did not look at the record. -/
structure Skipped (m m' : Memory) : Prop where
  replay : m'.mmioReplay = m.mmioReplay
  mismatch : m'.mmioReplayMismatch = m.mmioReplayMismatch

section Record
variable {cfg : Config} {m m' : Memory} {q : Request} (hshare : cfg.targetShare = true)
include hshare

theorem npcMmioReplayOk_iff : (npcMmioReplayOk cfg m).1 = true ↔
    m.mmioReplayMismatch = false ∧ m.mmioReplay.valid = false := by
  rw [npcMmioReplayOk, if_pos hshare]
  cases m.mmioReplayMismatch <;> cases m.mmioReplay.valid <;> simp

theorem Asked.ok_iff (h : Asked m m' q) : (npcMmioReplayOk cfg m').1 = true ↔
    m.mmioReplayMismatch = false ∧ m.mmioReplay.answers q = true := by
  rw [npcMmioReplayOk_iff hshare, h.mismatch, h.valid]
  cases m.mmioReplayMismatch <;> cases m.mmioReplay.answers q <;> simp

theorem Skipped.ok_iff (h : Skipped m m') : (npcMmioReplayOk cfg m').1 = true ↔
    m.mmioReplayMismatch = false ∧ m.mmioReplay.valid = false := by
  rw [npcMmioReplayOk_iff hshare, h.mismatch, h.replay]

/-- The two ways `replay_matches` ends. -/
theorem replayMatches_cases (q : Request) :
    (m.mmioReplay.answers q = true ∧
      replayMatches cfg m q.addr q.len q.isWrite q.data = (true, m)) ∨
    (m.mmioReplay.answers q = false ∧ ∃ m', replayMatches cfg m q.addr q.len q.isWrite q.data =
      (false, m') ∧ m'.mmioReplayMismatch = true ∧ m'.mmioReplay.valid = false ∧
        m'.space = m.space) := by
  unfold replayMatches
  split_ifs with hs hv hq hd
  · simp [hshare] at hs
  · have hv' : m.mmioReplay.valid = false := by simpa using hv
    exact .inr ⟨by simp [MMIOReplayRecord.answers, hv'], _, rfl, rfl, hv', rfl⟩
  · refine .inr ⟨?_, _, rfl, rfl, rfl, rfl⟩
    rw [Bool.eq_false_iff]
    intro h
    simp only [MMIOReplayRecord.answers, Bool.and_eq_true, beq_iff_eq] at h
    exact hq.elim (· h.1.1.1.2) (·.elim (· h.1.1.2) (· h.1.2))
  · refine .inr ⟨?_, _, rfl, rfl, rfl, rfl⟩
    simp only [Bool.and_eq_true, decide_eq_true_eq] at hd
    simp [MMIOReplayRecord.answers, hd.1, hd.2]
  · refine .inl ⟨?_, rfl⟩
    simp only [ne_eq, not_or, not_not] at hq
    simp only [Bool.not_eq_true, Bool.not_eq_false'] at hv
    simp only [Bool.and_eq_true, decide_eq_true_eq, not_and, not_not] at hd
    cases hw : q.isWrite with
    | false => simp [MMIOReplayRecord.answers, hv, hq.1, hq.2.1, hq.2.2, hw]
    | true => simp [MMIOReplayRecord.answers, hv, hq.1, hq.2.1, hq.2.2, hw, hd hw]

end Record

/-! ## Bytes -/

/-- The low `len` bytes of a word. -/
def lowBytes (len : Nat) (v : BitVec 32) : BitVec 32 := (v.setWidth (8 * len)).setWidth 32

section Bytes
variable {len : Nat} (hl : len = 1 ∨ len = 2 ∨ len = 4)
include hl

omit hl in
theorem storeLe_byte (p : Bytes) (offset : Nat) (v : BitVec 32) {k : Nat} (hk : k < len) :
    storeLe p offset len v (offset + k) = v.extractLsb' (8 * k) 8 := by
  have hin : offset ≤ offset + k ∧ offset + k < offset + len := by omega
  have hsub : (offset + k - offset) * 8 = 8 * k := by omega
  simp only [storeLe, if_pos hin, hsub]
  exact BitVec.setWidth_ushiftRight_eq_extractLsb

theorem hostRead_storeLe (p : Bytes) (offset : Nat) (v : BitVec 32) :
    hostRead (storeLe p offset len v) offset len = .ok (lowBytes len v) := by
  have h0 : 0 < len → storeLe p offset len v offset = v.extractLsb' 0 8 :=
    fun hk => storeLe_byte p offset v hk
  rcases hl with rfl | rfl | rfl
  all_goals
    simp (disch := omega) only [hostRead, h0, storeLe_byte, Except.ok.injEq]
    apply BitVec.eq_of_getLsbD_eq
    intro i hi
    simp only [lowBytes, BitVec.getLsbD_setWidth, BitVec.getLsbD_append,
      BitVec.getLsbD_extractLsb']
    grind

theorem loadLe_storeLe (p : Bytes) (offset : Nat) (v : BitVec 32) :
    loadLe (storeLe p offset len v) offset len = lowBytes len v := by
  rcases hl with rfl | rfl | rfl
  all_goals
    simp (disch := omega) only [loadLe, List.range_succ, List.range_zero, List.nil_append,
      List.foldl_append, List.foldl_cons, List.foldl_nil, storeLe_byte]
    apply BitVec.eq_of_getLsbD_eq
    intro i hi
    simp only [lowBytes, BitVec.getLsbD_setWidth, BitVec.getLsbD_or, BitVec.getLsbD_shiftLeft,
      BitVec.getLsbD_extractLsb', BitVec.getLsbD_zero]
    grind

theorem hostWrite_eq (p : Bytes) (offset : Nat) (v : BitVec 32) :
    hostWrite p offset len v = .ok (storeLe p offset len v) := by
  rcases hl with rfl | rfl | rfl <;> rfl

end Bytes

/-! ## The handlers -/

/-- The two devices whose accesses are replayed, with their windows. -/
inductive ReplayMap : IOMap → Prop
  | uart : ReplayMap (mmioMap npcUartBase npcUartSize .npcUart)
  | clint : ReplayMap (mmioMap npcClintBase npcClintSize .npcClint)

/-- The handler of the device asks for the record. -/
def covers (device : Device) (offset : BitVec 32) (len : Nat) : Bool :=
  match device with
  | .npcUart => true
  | .npcClint => clintRegAccess offset len
  | .serial | .rtc => false

section Handlers
variable {cfg : Config} {m m' : Memory} {map : IOMap} {offset : BitVec 32} {len : Nat}
  {isWrite : Bool}

theorem ReplayMap.mem (hmap : ReplayMap map) (dev : DeviceConfig) : map ∈ maps dev := by
  cases hmap with
  | uart => exact uart_mem dev
  | clint => exact clint_mem dev

theorem asked_of_consume (hshare : cfg.targetShare = true) {m1 : Memory} {q : Request}
    (ha : m.mmioReplay.answers q = true) (hm1 : Skipped m m1) :
    Asked m (consumeReplay cfg m1) q := by
  rw [consumeReplay, if_pos hshare]
  exact ⟨rfl, by simp [hm1.mismatch, ha]⟩

theorem asked_of_miss {m1 : Memory} {q : Request} (ha : m.mmioReplay.answers q = false)
    (hmis : m1.mmioReplayMismatch = true) (hval : m1.mmioReplay.valid = false)
    (hm1 : Skipped m1 m') : Asked m m' q :=
  ⟨by rw [hm1.replay, hval], by simp [hm1.mismatch, hmis, ha]⟩

theorem setSpace_skipped (m : Memory) (d : Device) (p : Bytes) : Skipped m (m.setSpace d p) :=
  ⟨rfl, rfl⟩

theorem setSpace_self (m : Memory) (d : Device) (p : Bytes) : (m.setSpace d p).space d = p := by
  simp [Memory.setSpace]

section Asks
variable (hshare : cfg.targetShare = true)
include hshare

theorem write_asked (q : Request)
    (h : (match replayMatches cfg m q.addr q.len q.isWrite q.data with
      | (true, m) => .ok (consumeReplay cfg m)
      | (false, m) => .ok m) = (.ok m' : Except Abort Memory)) : Asked m m' q := by
  rcases replayMatches_cases (m := m) hshare q with ⟨ha, heq⟩ | ⟨ha, m1, heq, hmis, hval, -⟩
  · simp only [heq] at h
    cases h
    exact asked_of_consume hshare ha ⟨rfl, rfl⟩
  · simp only [heq] at h
    cases h
    exact asked_of_miss ha hmis hval ⟨rfl, rfl⟩

/-- A read that is answered stores the recorded data; `miss` is what it stores otherwise. -/
theorem read_asked (q : Request) (d : Device) (offset : Nat) {miss : Memory → Memory}
    (hmiss : ∀ m, Skipped m (miss m))
    (h : (match replayMatches cfg m q.addr q.len q.isWrite q.data with
      | (true, m1) => .ok (consumeReplay cfg
          (m1.setSpace d (storeLe (m.space d) offset q.len m1.mmioReplay.rdata)))
      | (false, m1) => .ok (miss m1)) = (.ok m' : Except Abort Memory)) :
    Asked m m' q ∧ (m.mmioReplay.answers q = true →
      m'.space d = storeLe (m.space d) offset q.len m.mmioReplay.rdata) := by
  rcases replayMatches_cases (m := m) hshare q with ⟨ha, heq⟩ | ⟨ha, m1, heq, hmis, hval, -⟩
  · simp only [heq] at h
    cases h
    refine ⟨asked_of_consume hshare ha (setSpace_skipped ..), fun _ => ?_⟩
    rw [consumeReplay, if_pos hshare]
    exact setSpace_self ..
  · simp only [heq] at h
    cases h
    refine ⟨asked_of_miss ha hmis hval (hmiss m1), fun hc => ?_⟩
    rw [ha] at hc
    cases hc

theorem npcUartIoHandler_write (h : npcUartIoHandler cfg m offset len true = .ok m') :
    Asked m m' ⟨true, npcUartBase + offset, len, loadLe (m.space .npcUart) offset.toNat len⟩ := by
  simp only [npcUartIoHandler, hshare, Bool.not_true, Bool.false_and, Bool.false_eq_true, if_false,
    if_true] at h
  split_ifs at h
  exact write_asked hshare ⟨true, _, len, _⟩ h

theorem npcUartIoHandler_read (h : npcUartIoHandler cfg m offset len false = .ok m') :
    Asked m m' ⟨false, npcUartBase + offset, len, 0#32⟩ ∧
      (m.mmioReplay.answers ⟨false, npcUartBase + offset, len, 0#32⟩ = true →
        m'.space .npcUart = storeLe (m.space .npcUart) offset.toNat len m.mmioReplay.rdata) := by
  simp only [npcUartIoHandler, Bool.false_eq_true, if_false] at h
  split_ifs at h
  exact read_asked hshare ⟨false, _, len, 0#32⟩ .npcUart offset.toNat
    (fun m1 => setSpace_skipped m1 .npcUart (storeLe (m.space .npcUart) offset.toNat len 0#32)) h

theorem npcClintIoHandler_write (hcov : clintRegAccess offset len = true)
    (h : npcClintIoHandler cfg m offset len true = .ok m') :
    Asked m m' ⟨true, npcClintBase + offset, len, loadLe (m.space .npcClint) offset.toNat len⟩ := by
  simp only [npcClintIoHandler, hcov, Bool.not_true, Bool.false_eq_true, if_false, if_true] at h
  split_ifs at h
  exact write_asked hshare ⟨true, _, len, _⟩ h

theorem npcClintIoHandler_read (hcov : clintRegAccess offset len = true)
    (h : npcClintIoHandler cfg m offset len false = .ok m') :
    Asked m m' ⟨false, npcClintBase + offset, len, 0#32⟩ ∧
      (m.mmioReplay.answers ⟨false, npcClintBase + offset, len, 0#32⟩ = true →
        m'.space .npcClint = storeLe (m.space .npcClint) offset.toNat len m.mmioReplay.rdata) := by
  simp only [npcClintIoHandler, hcov, Bool.not_true, Bool.false_eq_true, if_false] at h
  split_ifs at h
  exact read_asked hshare ⟨false, _, len, 0#32⟩ .npcClint offset.toNat
    (fun m1 => setSpace_skipped m1 .npcClint _) h

/-- A write to a register of the UART or of the CLINT. -/
theorem callback_write_asked (hmap : ReplayMap map) (hcov : covers map.device offset len = true)
    (h : callback cfg m map.device offset len true = .ok m') :
    Asked m m' ⟨true, map.low + offset, len, loadLe (m.space map.device) offset.toNat len⟩ := by
  cases hmap with
  | uart => exact npcUartIoHandler_write hshare h
  | clint => exact npcClintIoHandler_write hshare hcov h

theorem callback_read_asked (hmap : ReplayMap map) (hcov : covers map.device offset len = true)
    (h : callback cfg m map.device offset len false = .ok m') :
    Asked m m' ⟨false, map.low + offset, len, 0#32⟩ ∧
      (m.mmioReplay.answers ⟨false, map.low + offset, len, 0#32⟩ = true →
        m'.space map.device =
          storeLe (m.space map.device) offset.toNat len m.mmioReplay.rdata) := by
  cases hmap with
  | uart => exact npcUartIoHandler_read hshare h
  | clint => exact npcClintIoHandler_read hshare hcov h

end Asks

/-- Outside the registers of the CLINT the record is not looked at, and a read gives zero. -/
theorem callback_skipped (hmap : ReplayMap map) (hcov : covers map.device offset len = false)
    (h : callback cfg m map.device offset len isWrite = .ok m') :
    Skipped m m' ∧ (isWrite = false →
      m'.space map.device = storeLe (m.space map.device) offset.toNat len 0#32) := by
  cases hmap with
  | uart => cases hcov
  | clint =>
    have hcov' : clintRegAccess offset len = false := hcov
    simp only [callback, mmioMap, npcClintIoHandler, hcov', Bool.not_false, if_true] at h
    split_ifs at h with hlen hw
    · cases h
      exact ⟨⟨rfl, rfl⟩, fun hc => by simp [hw] at hc⟩
    · cases h
      exact ⟨setSpace_skipped .., fun _ => setSpace_self ..⟩

end Handlers

/-! ## One access -/

theorem ReplayMap.range {map : IOMap} (hmap : ReplayMap map) :
    (map.low.toNat = 0x10000000 ∧ map.high.toNat = 0x1000001f) ∨
      (map.low.toNat = 0x02000000 ∧ map.high.toNat = 0x0200ffff) := by
  cases hmap with
  | uart => exact .inl ⟨rfl, rfl⟩
  | clint => exact .inr ⟨rfl, rfl⟩

theorem ReplayMap.accessOk {map : IOMap} (hmap : ReplayMap map) (cfg : Config) {addr : BitVec 32}
    {len : Nat} (h0 : 0 < len) (hi : InMap map addr len) : vaddrAccessOk cfg addr len = true := by
  have hr := hmap.range
  obtain ⟨h1, h2⟩ := hi
  rw [vaddrAccessOk_iff cfg h0 (by omega)]
  simp only [Within]
  omega

/-- What the guard lets through lies in the window it starts in. -/
theorem ReplayMap.inMap_of_accessOk {map : IOMap} (hmap : ReplayMap map) {cfg : Config}
    {addr : BitVec 32} {len : Nat} (h0 : 0 < len) (h4 : len ≤ 4) (hin : mapInside map addr = true)
    (hok : vaddrAccessOk cfg addr len = true) : InMap map addr len := by
  have hr := hmap.range
  rw [mapInside_iff] at hin
  rw [vaddrAccessOk_iff cfg h0 (by omega)] at hok
  refine ⟨hin.1, ?_⟩
  rcases hok with ⟨region, hreg, h1, h2⟩ | ⟨-, -, -, h⟩ | ⟨-, -, -, h⟩ | h | h
  · rcases mem_memRegions hreg with ⟨-, hbase, hsize, -⟩ | rfl | rfl
    · rw [hbase] at h1 h2
      simp only [configMbase, BitVec.toNat_ofNat] at h1 h2
      omega
    · simp only [BitVec.toNat_ofNat] at h1 h2
      omega
    · simp only [BitVec.toNat_ofNat] at h1 h2
      omega
  all_goals
    simp only [Within] at h
    omega

section Access
variable {cfg : Config} {dev : DeviceConfig} {m : Memory} {map : IOMap} {addr : BitVec 32}
  {len : Nat} (hshare : cfg.targetShare = true) (hdev : cfg.devices = some dev)
  (hmap : ReplayMap map) (hl : len = 1 ∨ len = 2 ∨ len = 4) (hi : InMap map addr len)
include hshare hdev hmap hl hi

omit hshare hdev in
theorem ReplayMap.accepts (isWrite : Bool) :
    accepts map.device (addr - map.low) len isWrite := by
  obtain ⟨h1, h2⟩ := hi
  cases hmap with
  | uart =>
    simp only [mmioMap, Nemu.accepts, BitVec.lt_def, BitVec.le_def, BitVec.toNat_add,
      BitVec.toNat_sub, BitVec.toNat_ofNat, npcUartBase, npcUartSize] at h1 h2 ⊢
    omega
  | clint => exact ⟨by omega, by omega⟩

/-- What a read of the emulator in a replayed window gives and does to the record. -/
theorem paddrRead_replay : ∃ v m', paddrRead cfg m addr len = .ok (v, m') ∧
    (covers map.device (addr - map.low) len = true →
      Asked m m' ⟨false, addr, len, 0#32⟩ ∧
      (m.mmioReplay.answers ⟨false, addr, len, 0#32⟩ = true →
        v = lowBytes len m.mmioReplay.rdata)) ∧
    (covers map.device (addr - map.low) len = false → Skipped m m' ∧ v = 0#32) := by
  have hck := checkBound_inMap (hmap.mem dev) hl hi
  have hnb : paddrIsBacked cfg addr len = false := not_backed_of_inMap (hmap.mem dev) (by omega) hi
  have haddr : map.low + (addr - map.low) = addr := by
    rw [BitVec.add_comm, BitVec.sub_add_cancel]
  obtain ⟨m', hcb⟩ := (callback_ok_iff cfg m map.device (addr - map.low) false).mpr
    (hmap.accepts hl hi false)
  obtain ⟨v, hv⟩ := hostRead_ok hl (m'.space map.device) (addr - map.low).toNat
  refine ⟨v, m', ?_, ?_, ?_⟩
  · rw [paddrRead, if_neg (by simp [hnb]), hdev]
    simp only [mapRead, hck, bind, Except.bind, pure, Except.pure, hcb, hv]
  · intro hcov
    obtain ⟨hasked, hspace⟩ := callback_read_asked hshare hmap hcov hcb
    rw [haddr] at hasked hspace
    refine ⟨hasked, fun ha => ?_⟩
    rw [hspace ha, hostRead_storeLe hl] at hv
    exact (Except.ok.inj hv).symm
  · intro hcov
    obtain ⟨hskip, hspace⟩ := callback_skipped hmap hcov hcb
    rw [hspace rfl, hostRead_storeLe hl] at hv
    refine ⟨hskip, ?_⟩
    rw [← Except.ok.inj hv, lowBytes, BitVec.setWidth_zero, BitVec.setWidth_zero]

theorem paddrWrite_replay (data : BitVec 32) : ∃ m', paddrWrite cfg m addr len data = .ok m' ∧
    (covers map.device (addr - map.low) len = true →
      Asked m m' ⟨true, addr, len, lowBytes len data⟩) ∧
    (covers map.device (addr - map.low) len = false → Skipped m m') := by
  have hck := checkBound_inMap (hmap.mem dev) hl hi
  have hnb : paddrIsBacked cfg addr len = false := not_backed_of_inMap (hmap.mem dev) (by omega) hi
  have haddr : map.low + (addr - map.low) = addr := by
    rw [BitVec.add_comm, BitVec.sub_add_cancel]
  let m1 := m.setSpace map.device
    (storeLe (m.space map.device) (addr - map.low).toNat len data)
  obtain ⟨m', hcb⟩ := (callback_ok_iff cfg m1 map.device (addr - map.low) true).mpr
    (hmap.accepts hl hi true)
  refine ⟨m', ?_, ?_, ?_⟩
  · rw [paddrWrite, if_neg (by simp [hnb]), hdev]
    simp only [mapWrite, hck, bind, Except.bind, hostWrite_eq hl]
    exact hcb
  · intro hcov
    have hasked := callback_write_asked hshare hmap hcov hcb
    rw [haddr, setSpace_self, loadLe_storeLe hl] at hasked
    exact ⟨hasked.valid, hasked.mismatch⟩
  · intro hcov
    obtain ⟨⟨hr, hm⟩, -⟩ := callback_skipped hmap hcov hcb
    exact ⟨hr, hm⟩

end Access

/-- An access that starts outside the two windows leaves the record alone. -/
theorem paddrRead_outside {cfg : Config} {m m' : Memory} {addr v : BitVec 32} {len : Nat}
    (hout : ∀ map, ReplayMap map → mapInside map addr = false)
    (h : paddrRead cfg m addr len = .ok (v, m')) : Skipped m m' := by
  unfold paddrRead at h
  split_ifs at h
  · cases hp : pmemRead cfg m addr len with
    | error a =>
      rw [hp] at h
      cases h
    | ok w =>
      rw [hp] at h
      cases h
      exact ⟨rfl, rfl⟩
  · cases hdev : cfg.devices with
    | none =>
      simp only [hdev] at h
      cases h
    | some dev =>
      simp only [hdev] at h
      obtain ⟨map, hck, h⟩ := ok_of_bind h
      obtain ⟨m1, hcb, h⟩ := ok_of_bind h
      obtain ⟨w, -, h⟩ := ok_of_bind h
      cases h
      have hmap : map ∈ maps dev ∧ mapInside map addr = true := by
        unfold checkBound at hck
        split_ifs at hck
        cases hf : fetchMmioMap dev addr with
        | none =>
          rw [hf] at hck
          cases hck
        | some map' =>
          rw [hf] at hck
          simp only at hck
          split_ifs at hck with hin
          cases hck
          exact ⟨List.mem_of_find?_eq_some hf, hin⟩
      obtain ⟨hmem, hin⟩ := hmap
      rcases mem_maps hmem with ⟨-, rfl⟩ | ⟨-, rfl⟩ | rfl | rfl
      · -- the serial port refuses reads
        simp only [callback, serialIoHandler, Bool.false_eq_true, if_false] at hcb
        split_ifs at hcb
      · simp only [callback, rtcIoHandler, Bool.false_eq_true, if_false] at hcb
        split_ifs at hcb
        cases hcb
        exact setSpace_skipped ..
      · exact absurd ((hout _ .uart).symm.trans hin) (by decide)
      · exact absurd ((hout _ .clint).symm.trans hin) (by decide)

/-! ## Loads and stores -/

theorem bytes_cases (width : Rv32e.Width) :
    width.bytes = 1 ∨ width.bytes = 2 ∨ width.bytes = 4 := by
  cases width <;> decide

/-- How a load extends what it has read. -/
def extendLoad : Rv32e.Width → Bool → BitVec 32 → BitVec 32
  | .byte, false => sextByte
  | .half, false => sextHalf
  | _, _ => id

section Instr
variable {cfg : Config} {m : Machine} {mem : Memory} {inst : BitVec 32} {width : Rv32e.Width}
  {rs1 : Rv32e.Reg} {imm : BitVec 12} (h0 : m.cpu.gpr 0#5 = 0#32)
  (hok : vaddrAccessOk cfg m.cpu.pc 4 = true)
  (hfetch : vaddrIfetch cfg m.mem m.cpu.pc 4 = .ok (inst, mem))
  (hacc : vaddrAccessOk cfg (m.cpu.gpr rs1 + imm.signExtend 32) width.bytes = true)
include h0 hok hfetch hacc

theorem execOnce_load {unsigned : Bool} {rd : Rv32e.Reg} {v : BitVec 32} {mem' : Memory}
    (hd : Rv32e.decodeAny inst = some (.load width unsigned rd rs1 imm))
    (hread : vaddrRead cfg mem (m.cpu.gpr rs1 + imm.signExtend 32) width.bytes = .ok (v, mem')) :
    ∃ e, execOnce cfg m = .ok e ∧ e.m.mem = mem' ∧
      e.m.cpu.gpr = writeGpr m.cpu.gpr (Rv32e.setReg rd (extendLoad width unsigned v)) := by
  obtain ⟨name, type, hform, hmatch⟩ := found_of_decodeAny hd ⟨nofun, nofun, nofun, nofun⟩
  have hbody : ∀ ext, (fetched m mem inst).load cfg
      ⟨rd, m.cpu.gpr rs1, 0#32, imm.signExtend 32⟩ width.bytes ext =
      .ok (({ fetched m mem inst with m.mem := mem' } : Exec).setR rd (ext v)) := by
    intro ext
    simp only [Exec.load, hacc, if_true]
    have hread' : vaddrRead cfg (fetched m mem inst).m.mem (m.cpu.gpr rs1 + imm.signExtend 32)
      width.bytes = .ok (v, mem') := hread
    rw [hread']
    rfl
  have hexec : ∀ ext, execBody cfg name (decodeOperand inst m.cpu.gpr type) (fetched m mem inst) =
      (fetched m mem inst).load cfg ⟨rd, m.cpu.gpr rs1, 0#32, imm.signExtend 32⟩ width.bytes ext →
      ext = extendLoad width unsigned → ∃ e, execOnce cfg m = .ok e ∧ e.m.mem = mem' ∧
        e.m.cpu.gpr = writeGpr m.cpu.gpr (Rv32e.setReg rd (extendLoad width unsigned v)) := by
    rintro ext he rfl
    exact ⟨_, execOnce_of_body hok hfetch hmatch (he.trans (hbody _)), rfl, setR_zero h0 rd _⟩
  cases hform with
  | lb | lh | lw | lbu | lhu =>
    rw [decodeOperand_I] at hexec
    exact hexec _ rfl rfl

theorem execOnce_store {rs2 : Rv32e.Reg} {mem' : Memory}
    (hd : Rv32e.decodeAny inst = some (.store width rs1 rs2 imm))
    (hwrite : vaddrWrite cfg mem (m.cpu.gpr rs1 + imm.signExtend 32) width.bytes (m.cpu.gpr rs2) =
      .ok mem') :
    ∃ e, execOnce cfg m = .ok e ∧ e.m.mem = mem' ∧ e.m.cpu.gpr = m.cpu.gpr := by
  obtain ⟨name, type, hform, hmatch⟩ := found_of_decodeAny hd ⟨nofun, nofun, nofun, nofun⟩
  cases hform with
  | store =>
    have hbody : execBody cfg (storeName width) (decodeOperand inst m.cpu.gpr .S)
        (fetched m mem inst) = .ok { fetched m mem inst with m.mem := mem' } := by
      rw [decodeOperand_S, store_body]
      simp only [Exec.store, hacc, if_true]
      have hwrite' : vaddrWrite cfg (fetched m mem inst).m.mem
        (m.cpu.gpr (Rv32e.rs1 inst) + (Rv32e.immS inst).signExtend 32) width.bytes
        (m.cpu.gpr (Rv32e.rs2 inst)) = .ok mem' := hwrite
      rw [hwrite']
      rfl
    exact ⟨_, execOnce_of_body hok hfetch hmatch hbody, rfl, update_zero h0⟩

end Instr

end Nemu

namespace Difftest

set_option autoImplicit false

open Nemu

/-! ## One instruction with its record -/

/-- The record is installed, the instruction is executed, the record is used up without a
complaint, and the registers are `gpr`. -/
def Replays (cfg : Config) (m : Machine) (record : MMIOReplayRecord)
    (gpr : BitVec 5 → BitVec 32) : Prop :=
  ∃ mem e, setMmioReplay cfg m.mem record = .ok mem ∧ execOnce cfg { m with mem := mem } = .ok e ∧
    (npcMmioReplayOk cfg e.m.mem).1 = true ∧ e.m.cpu.gpr = gpr

theorem replays_iff_executed {cfg : Config} {m : Machine} {record : MMIOReplayRecord}
    {gpr : BitVec 5 → BitVec 32} {mem : Memory} {e : Exec}
    (hset : setMmioReplay cfg m.mem record = .ok mem)
    (hexec : execOnce cfg { m with mem := mem } = .ok e) :
    Replays cfg m record gpr ↔ (npcMmioReplayOk cfg e.m.mem).1 = true ∧ e.m.cpu.gpr = gpr := by
  constructor
  · rintro ⟨mem', e', hset', hexec', hok, hgpr⟩
    obtain rfl : mem = mem' := Except.ok.inj (hset.symm.trans hset')
    obtain rfl : e = e' := Except.ok.inj (hexec.symm.trans hexec')
    exact ⟨hok, hgpr⟩
  · rintro ⟨hok, hgpr⟩
    exact ⟨mem, e, hset, hexec, hok, hgpr⟩

/-- With the record installed, the emulator fetches `inst`. -/
def Fetches (cfg : Config) (m : Machine) (record : MMIOReplayRecord) (inst : BitVec 32) : Prop :=
  vaddrAccessOk cfg m.cpu.pc 4 = true ∧ ∃ mem mem', setMmioReplay cfg m.mem record = .ok mem ∧
    vaddrIfetch cfg mem m.cpu.pc 4 = .ok (inst, mem')

/-- The instruction does not lie in a replayed window itself. -/
def PlainFetch (pc : BitVec 32) : Prop := ∀ map, ReplayMap map → mapInside map pc = false

section Outcome
variable {cfg : Config} {mem mem1 mem2 mem3 : Memory} {record : MMIOReplayRecord}
  (hshare : cfg.targetShare = true) (hidle : mem.mmioReplay.valid = false)
  (hset : setMmioReplay cfg mem record = .ok mem1)
include hshare hidle hset

theorem setMmioReplay_answers (q : Request) :
    mem1.mmioReplay.answers q = record.answers q := by
  unfold setMmioReplay npcMmioReplaySet at hset
  by_cases hv : record.valid = true
  · rw [if_pos hv, if_pos hshare, if_neg (by simp [hidle])] at hset
    cases hset
    rfl
  · rw [if_neg hv] at hset
    cases hset
    simp only [Bool.not_eq_true] at hv
    simp [MMIOReplayRecord.answers, hidle, hv]

theorem setMmioReplay_valid (hv : record.valid = true) :
    mem1.mmioReplay = record ∧ mem1.mmioReplayMismatch = false := by
  unfold setMmioReplay npcMmioReplaySet at hset
  rw [if_pos hv, if_pos hshare, if_neg (by simp [hidle])] at hset
  cases hset
  exact ⟨rfl, rfl⟩

/-- The verdict after the fetch and the data access, each of which may ask for the record.
`covered` says whether the data access does. -/
theorem replayOk_iff {plain : Prop} {covered : Bool} {fetch q : Request}
    (hfetch : (plain ∧ Skipped mem1 mem2) ∨
      (¬ plain ∧ (record.answers fetch = true → covered = true) ∧ Asked mem1 mem2 fetch))
    (hask : covered = true → Asked mem2 mem3 q) (hskip : covered = false → Skipped mem2 mem3)
    (hvalid : covered = false → record.valid = true) :
    (npcMmioReplayOk cfg mem3).1 = true ↔ plain ∧ covered = true ∧ record.answers q = true := by
  have hans := setMmioReplay_answers hshare hidle hset
  have hmis : ∀ q, record.answers q = true → mem1.mmioReplayMismatch = false := by
    intro q hq
    exact (setMmioReplay_valid hshare hidle hset (valid_of_answers hq)).2
  rcases hfetch with ⟨hp, hr, hm⟩ | ⟨hp, hself, hv, hm⟩
  · cases hc : covered with
    | true =>
      rw [(hask hc).ok_iff hshare, hr, hm, hans]
      exact ⟨fun h => ⟨hp, rfl, h.2⟩, fun h => ⟨hmis q h.2.2, h.2.2⟩⟩
    | false =>
      rw [(hskip hc).ok_iff hshare, hr, (setMmioReplay_valid hshare hidle hset (hvalid hc)).1]
      simp [hvalid hc]
  · cases hc : covered with
    | true =>
      rw [(hask hc).ok_iff hshare]
      simp [MMIOReplayRecord.answers, hv, hp]
    | false =>
      rw [(hskip hc).ok_iff hshare, hm, hans]
      have hno : record.answers fetch = false := by
        rw [Bool.eq_false_iff]
        intro ha
        rw [hself ha] at hc
        cases hc
      simp [hno]

end Outcome

/-- The fetch asks for the record exactly when the instruction lies in a replayed window
where it is not read as zero. -/
theorem fetch_outcome {cfg : Config} {dev : DeviceConfig} {mem mem' : Memory} {pc inst : BitVec 32}
    (hshare : cfg.targetShare = true) (hdev : cfg.devices = some dev)
    (hok : vaddrAccessOk cfg pc 4 = true) (hinst : inst ≠ 0#32)
    (hf : vaddrIfetch cfg mem pc 4 = .ok (inst, mem')) :
    (PlainFetch pc ∧ Skipped mem mem') ∨
      (¬ PlainFetch pc ∧ ∃ map, ReplayMap map ∧ mapInside map pc = true ∧
        covers map.device (pc - map.low) 4 = true ∧ Asked mem mem' ⟨false, pc, 4, 0#32⟩) := by
  by_cases hp : PlainFetch pc
  · exact .inl ⟨hp, paddrRead_outside hp hf⟩
  · refine .inr ⟨hp, ?_⟩
    simp only [PlainFetch, not_forall, Bool.not_eq_false] at hp
    obtain ⟨map, hmap, hin⟩ := hp
    have hi : InMap map pc 4 := hmap.inMap_of_accessOk (by omega) (by omega) hin hok
    obtain ⟨v, m1, hread, hcov, hskip⟩ :=
      paddrRead_replay (m := mem) hshare hdev hmap (.inr (.inr rfl)) hi
    obtain ⟨rfl, rfl⟩ : inst = v ∧ mem' = m1 := by
      simpa using Except.ok.inj (hf.symm.trans hread)
    cases hc : covers map.device (pc - map.low) 4 with
    | true => exact ⟨map, hmap, hin, hc, (hcov hc).1⟩
    | false => exact absurd (hskip hc).2 hinst

section Instr
variable {cfg : Config} {dev : DeviceConfig} {m : Machine} {record : MMIOReplayRecord}
  {inst addr : BitVec 32} {width : Rv32e.Width} {rs1 : Rv32e.Reg} {imm : BitVec 12} {map : IOMap}
  (hshare : cfg.targetShare = true) (hdev : cfg.devices = some dev)
  (h0 : m.cpu.gpr 0#5 = 0#32) (hidle : m.mem.mmioReplay.valid = false)
  (hf : Fetches cfg m record inst) (hmap : ReplayMap map)
  (haddr : addr = m.cpu.gpr rs1 + imm.signExtend 32) (hi : InMap map addr width.bytes)
  (hvalid : covers map.device (addr - map.low) width.bytes = false → record.valid = true)
  (hself : record.answers ⟨false, m.cpu.pc, 4, 0#32⟩ = true →
    covers map.device (addr - map.low) width.bytes = true ∨ (addr = m.cpu.pc ∧ width = .word))
include hshare hdev h0 hidle hf hmap haddr hi hvalid hself

omit h0 hidle hf haddr hvalid in
/-- A record that answers the fetch is not left over after it. -/
theorem fetch_self {mem mem' : Memory} (hok : vaddrAccessOk cfg m.cpu.pc 4 = true)
    (hinst : inst ≠ 0#32) (hfetch : vaddrIfetch cfg mem m.cpu.pc 4 = .ok (inst, mem')) :
    (PlainFetch m.cpu.pc ∧ Skipped mem mem') ∨
      (¬ PlainFetch m.cpu.pc ∧ (record.answers ⟨false, m.cpu.pc, 4, 0#32⟩ = true →
        covers map.device (addr - map.low) width.bytes = true) ∧
        Asked mem mem' ⟨false, m.cpu.pc, 4, 0#32⟩) := by
  rcases fetch_outcome hshare hdev hok hinst hfetch with h | ⟨hp, map', hmap', hin', hcov, hask⟩
  · exact .inl h
  · refine .inr ⟨hp, ?_, hask⟩
    intro ha
    rcases hself ha with hc | ⟨rfl, rfl⟩
    · exact hc
    have hin : mapInside map m.cpu.pc = true := by
      rw [mapInside_iff]
      obtain ⟨h1, h2⟩ := hi
      simp only [Rv32e.Width.bytes] at h2
      omega
    rw [← map_unique (hmap.mem dev) (hmap'.mem dev) hin hin']
    exact hcov

theorem replays_load_iff {unsigned : Bool} {rd : Rv32e.Reg} {v : BitVec 32}
    (hd : Rv32e.decodeAny inst = some (.load width unsigned rd rs1 imm))
    (hval : extendLoad width unsigned (lowBytes width.bytes record.rdata) = v) :
    Replays cfg m record (writeGpr m.cpu.gpr (Rv32e.setReg rd v)) ↔
      PlainFetch m.cpu.pc ∧ covers map.device (addr - map.low) width.bytes = true ∧
        record.answers ⟨false, addr, width.bytes, 0#32⟩ = true := by
  obtain ⟨hok, mem1, mem2, hset, hfetch⟩ := hf
  have hinst : inst ≠ 0#32 := by
    rintro rfl
    cases hd
  have hl := bytes_cases width
  obtain ⟨v', mem3, hread, hcov, hskip⟩ :=
    paddrRead_replay (m := mem2) hshare hdev hmap hl hi
  have hacc := hmap.accessOk cfg (by omega) hi
  obtain ⟨e, hexec, rfl, hgpr⟩ := execOnce_load (m := { m with mem := mem1 }) h0 hok hfetch
    (haddr ▸ hacc) hd (haddr ▸ hread)
  have hself' := fetch_self hshare hdev hmap hi hself hok hinst hfetch
  have hiff := replayOk_iff hshare hidle hset hself' (fun hc => (hcov hc).1)
    (fun hc => (hskip hc).1) hvalid
  rw [replays_iff_executed hset hexec, hiff]
  constructor
  · intro h
    exact h.1
  · intro h
    refine ⟨h, ?_⟩
    obtain ⟨hp, hc, ha⟩ := h
    have hreplay : mem2.mmioReplay = record := by
      rcases hself' with ⟨-, hskipped⟩ | ⟨hnp, -⟩
      · rw [hskipped.replay, (setMmioReplay_valid hshare hidle hset (valid_of_answers ha)).1]
      · exact absurd hp hnp
    have hv : v' = lowBytes width.bytes record.rdata := by
      have hread := (hcov hc).2
      rw [hreplay] at hread
      exact hread ha
    rw [hgpr, hv, hval]

theorem replays_store_iff {rs2 : Rv32e.Reg}
    (hd : Rv32e.decodeAny inst = some (.store width rs1 rs2 imm)) :
    Replays cfg m record m.cpu.gpr ↔
      PlainFetch m.cpu.pc ∧ covers map.device (addr - map.low) width.bytes = true ∧
        record.answers
          ⟨true, addr, width.bytes, lowBytes width.bytes (m.cpu.gpr rs2)⟩ = true := by
  obtain ⟨hok, mem1, mem2, hset, hfetch⟩ := hf
  have hinst : inst ≠ 0#32 := by
    rintro rfl
    cases hd
  have hl := bytes_cases width
  obtain ⟨mem3, hwrite, hcov, hskip⟩ :=
    paddrWrite_replay (m := mem2) hshare hdev hmap hl hi (m.cpu.gpr rs2)
  have hacc := hmap.accessOk cfg (by omega) hi
  obtain ⟨e, hexec, rfl, hgpr⟩ := execOnce_store (m := { m with mem := mem1 }) h0 hok hfetch
    (haddr ▸ hacc) hd (haddr ▸ hwrite)
  have hself' := fetch_self hshare hdev hmap hi hself hok hinst hfetch
  have hiff := replayOk_iff hshare hidle hset hself' hcov hskip hvalid
  rw [replays_iff_executed hset hexec, hiff, and_iff_left hgpr]

end Instr

end Difftest
