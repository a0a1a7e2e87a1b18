import AiOsoc.Difftest.Sound

/-!
# The register path of the checker

`Difftest::step` compares events when the reference exports them, and the whole
register file otherwise. A commit event carries no CSR, and says nothing about a
register it does not name; here it is made exact what the second comparison would
have seen on top of the first.
-/

namespace Difftest

set_option autoImplicit false

open Nemu

/-- What the simulator hands to `step` beside the event: the debug ports. -/
structure Dut where
  regs : BitVec 4 → BitVec 32
  pc : BitVec 32
  mstatus : BitVec 32
  mtvec : BitVec 32
  mepc : BitVec 32
  mcause : BitVec 32

/-- The state the ports stand for, as `fill_state` copies it to the reference. -/
def Dut.cpu (d : Dut) : Cpu := fillState d.regs d.pc d.mstatus d.mtvec d.mepc d.mcause

def checkRegs (ref : Cpu) (d : Dut) : Bool :=
  ref.pc == d.pc &&
    (List.range 16).all (fun i =>
      ref.gpr (BitVec.ofNat 5 i) == if i = 0 then 0#32 else d.regs (BitVec.ofNat 4 i)) &&
    (List.range' 16 16).all (fun i => ref.gpr (BitVec.ofNat 5 i) == 0#32) &&
    ref.mstatus == d.mstatus && ref.mtvec == d.mtvec && ref.mepc == d.mepc &&
    ref.mcause == d.mcause

/-- `Difftest::step` with a reference that does not export the event functions. -/
def stepRegs (cfg : Config) (quit : Bool) (r : Ref) (d : Dut) (record : MMIOReplayRecord) :
    Except Failure StepResult := do
  let mem ← setMmioReplay cfg r.m.mem record
  let r ← (cpuExec cfg quit { r with m.mem := mem }).mapError .abort
  let (replayOk, mem) := npcMmioReplayOk cfg r.m.mem
  let r := { r with m.mem := mem }
  return if !replayOk then ⟨false, false, r⟩ else ⟨checkRegs r.m.cpu d, false, r⟩

/-- Equal in the four CSRs that are compared. -/
structure SameCsrs (a b : Cpu) : Prop where
  mstatus : a.mstatus = b.mstatus
  mtvec : a.mtvec = b.mtvec
  mepc : a.mepc = b.mepc
  mcause : a.mcause = b.mcause

theorem SameCsrs.trans {a b c : Cpu} (h : SameCsrs a b) (g : SameCsrs b c) : SameCsrs a c :=
  ⟨h.mstatus.trans g.mstatus, h.mtvec.trans g.mtvec, h.mepc.trans g.mepc, h.mcause.trans g.mcause⟩

section Check
variable {ref : Cpu} {d : Dut}

theorem cpu_gpr_low {i : Nat} (hi : i < 16) :
    d.cpu.gpr (BitVec.ofNat 5 i) = if i = 0 then 0#32 else d.regs (BitVec.ofNat 4 i) := by
  have hn : (BitVec.ofNat 5 i).toNat = i := by
    rw [BitVec.toNat_ofNat]
    omega
  have hzero : BitVec.ofNat 5 i = 0#5 ↔ i = 0 := by
    rw [← BitVec.toNat_inj, hn]
    rfl
  have hlt : BitVec.ofNat 5 i < 16#5 := by
    rw [BitVec.lt_def, hn]
    exact hi
  have hreg : (BitVec.ofNat 5 i).setWidth 4 = BitVec.ofNat 4 i := by
    apply BitVec.eq_of_toNat_eq
    rw [BitVec.toNat_setWidth, hn, BitVec.toNat_ofNat]
  simp only [Dut.cpu, fillState, hzero, if_pos hlt, hreg]

theorem cpu_gpr_high {i : Nat} (h1 : 16 ≤ i) (h2 : i < 32) :
    d.cpu.gpr (BitVec.ofNat 5 i) = 0#32 := by
  have hn : (BitVec.ofNat 5 i).toNat = i := by
    rw [BitVec.toNat_ofNat]
    omega
  have hlt : ¬ BitVec.ofNat 5 i < 16#5 := by
    rw [BitVec.lt_def, hn]
    exact Nat.not_lt.mpr h1
  simp only [Dut.cpu, fillState, if_neg hlt, ite_self]

/-- The two loops of `check_regs` go over all registers. -/
theorem gpr_eq_iff : ref.gpr = d.cpu.gpr ↔
    (∀ i < 16, ref.gpr (BitVec.ofNat 5 i) = if i = 0 then 0#32 else d.regs (BitVec.ofNat 4 i)) ∧
    ∀ i, 16 ≤ i → i < 32 → ref.gpr (BitVec.ofNat 5 i) = 0#32 := by
  constructor
  · intro h
    rw [h]
    exact ⟨fun i hi => cpu_gpr_low hi, fun i h1 h2 => cpu_gpr_high h1 h2⟩
  · rintro ⟨hlow, hhigh⟩
    funext x
    have hx : BitVec.ofNat 5 x.toNat = x := by
      rw [BitVec.ofNat_toNat, BitVec.setWidth_eq]
    rw [← hx]
    by_cases hlt : x.toNat < 16
    · rw [hlow _ hlt, cpu_gpr_low hlt]
    · rw [hhigh _ (Nat.not_lt.mp hlt) x.isLt, cpu_gpr_high (Nat.not_lt.mp hlt) x.isLt]

theorem checkRegs_iff : checkRegs ref d = true ↔
    ref.pc = d.pc ∧ ref.gpr = d.cpu.gpr ∧ SameCsrs ref d.cpu := by
  have hhigh : (∀ i ∈ List.range' 16 16, ref.gpr (BitVec.ofNat 5 i) = 0#32) ↔
      ∀ i, 16 ≤ i → i < 32 → ref.gpr (BitVec.ofNat 5 i) = 0#32 := by
    simp only [List.mem_range'_1, and_imp, Nat.reduceAdd]
  rw [gpr_eq_iff, ← hhigh]
  simp only [checkRegs, Bool.and_eq_true, beq_iff_eq, List.all_eq_true, List.mem_range]
  constructor
  · rintro ⟨⟨⟨⟨⟨⟨hpc, hlow⟩, hh⟩, h1⟩, h2⟩, h3⟩, h4⟩
    exact ⟨hpc, ⟨hlow, hh⟩, ⟨h1, h2, h3, h4⟩⟩
  · rintro ⟨hpc, ⟨hlow, hh⟩, hc⟩
    exact ⟨⟨⟨⟨⟨⟨hpc, hlow⟩, hh⟩, hc.mstatus⟩, hc.mtvec⟩, hc.mepc⟩, hc.mcause⟩

end Check

end Difftest

namespace Nemu

set_option autoImplicit false

open Difftest

/-! ## Which instructions change a CSR -/

/-- The body of the pattern writes a CSR without an exception of its event. -/
def Name.setsCsr : Name → Bool
  | .csrrw | .csrrs | .csrrc | .csrrwi | .csrrsi | .csrrci | .ecall => true
  | _ => false

/-- The `SYSTEM` opcode. -/
def isSystem (inst : BitVec 32) : Bool := Rv32e.opcode inst == 0b1110011#7

theorem pattern_system : ∀ p ∈ decodedPats, p.2.1.setsCsr = true →
    p.1.2.2 = 0 ∧ p.1.2.1.extractLsb' 0 7 = BitVec.allOnes 7 ∧
      p.1.1.extractLsb' 0 7 = 0b1110011#7 := by
  decide +kernel

theorem isSystem_of_setsCsr {inst : BitVec 32} {name : Name} {type : InstType}
    (h : matchInst inst = some (name, type)) (hs : name.setsCsr = true) : isSystem inst = true := by
  obtain ⟨key, mask, shift, hmem, hm⟩ := mem_of_matchInst h
  obtain ⟨rfl, hop, hkey⟩ := pattern_system _ hmem hs
  rw [BitVec.ushiftRight_zero] at hm
  have hopcode : Rv32e.opcode inst = key.extractLsb' 0 7 := field_of_masked hm hop
  rw [isSystem, hopcode, hkey]
  rfl

section Bodies
variable {cfg : Config} {e e' : Exec} {o : Operands}

theorem invalidInst_csrs {m m' : Machine} {pc : BitVec 32} (h : invalidInst cfg m pc = .ok m') :
    SameCsrs m'.cpu m.cpu := by
  obtain ⟨r1, -, h⟩ := ok_of_bind h
  obtain ⟨r2, -, h⟩ := ok_of_bind h
  cases h
  exact ⟨rfl, rfl, rfl, rfl⟩

theorem Exec.load_csrs {len : Nat} {ext : BitVec 32 → BitVec 32} (h : e.load cfg o len ext = .ok e')
    (hx : e'.s.exception = false) : SameCsrs e'.m.cpu e.m.cpu := by
  unfold Exec.load at h
  simp only at h
  split_ifs at h
  · obtain ⟨r, -, h⟩ := ok_of_bind h
    cases h
    exact ⟨rfl, rfl, rfl, rfl⟩
  · cases h
    cases hx

theorem Exec.store_csrs {len : Nat} (h : e.store cfg o len = .ok e')
    (hx : e'.s.exception = false) : SameCsrs e'.m.cpu e.m.cpu := by
  unfold Exec.store at h
  simp only at h
  split_ifs at h
  · obtain ⟨r, -, h⟩ := ok_of_bind h
    cases h
    exact ⟨rfl, rfl, rfl, rfl⟩
  · cases h
    cases hx

theorem execBody_csrs {name : Name} (hs : name.setsCsr = false)
    (h : execBody cfg name o e = .ok e') (hx : e'.s.exception = false) :
    SameCsrs e'.m.cpu e.m.cpu := by
  cases name with
  | lui | auipc | addi | slti | sltiu | xori | ori | andi | slli | srli | srai
  | add | sub | mul | mulh | mulhsu | mulhu | div | divu | rem | remu
  | sll | srl | sra | slt | sltu | xor | or | and | jal | jalr | mret | ebreak =>
    cases h
    exact ⟨rfl, rfl, rfl, rfl⟩
  | lb | lh | lw | lbu | lhu => exact Exec.load_csrs h hx
  | sb | sh | sw => exact Exec.store_csrs h hx
  | beq | bne | blt | bge | bltu | bgeu =>
    cases h
    split <;> exact ⟨rfl, rfl, rfl, rfl⟩
  | csrrw | csrrs | csrrc | csrrwi | csrrsi | csrrci | ecall => cases hs
  | inv =>
    obtain ⟨m, hm, h⟩ := ok_of_bind h
    cases h
    exact invalidInst_csrs hm

theorem decodeExec_csrs (hs : isSystem e.s.inst = false) (h : decodeExec cfg e = .ok e')
    (hx : e'.s.exception = false) : SameCsrs e'.m.cpu e.m.cpu := by
  unfold decodeExec at h
  cases hm : matchInst (e.jump e.s.snpc).s.inst with
  | none =>
    simp only [hm] at h
    cases h
    exact ⟨rfl, rfl, rfl, rfl⟩
  | some r =>
    obtain ⟨name, type⟩ := r
    simp only [hm] at h
    obtain ⟨e1, hbody, h⟩ := ok_of_bind h
    cases h
    have hsets : name.setsCsr = false := by
      by_contra hsets
      have hsys := isSystem_of_setsCsr hm (Bool.not_eq_false _ ▸ hsets)
      rw [show (e.jump e.s.snpc).s.inst = e.s.inst from rfl, hs] at hsys
      cases hsys
    obtain ⟨h1, h2, h3, h4⟩ := execBody_csrs hsets hbody hx
    exact ⟨h1, h2, h3, h4⟩

theorem execOnce_csrs {m : Machine} (h : execOnce cfg m = .ok e)
    (hs : isSystem e.s.inst = false) (hx : e.s.exception = false) :
    SameCsrs e.m.cpu m.cpu := by
  obtain ⟨e1, hexec, he⟩ := ok_of_bind h
  cases he
  unfold isaExecOnce at hexec
  split_ifs at hexec
  · cases hexec
    cases hx
  · obtain ⟨⟨inst, mem⟩, -, hdec⟩ := ok_of_bind hexec
    have hinst := (decodeExec_writes rfl hdec).1
    have hsys : isSystem inst = false := by
      rw [← hs, hinst]
    obtain ⟨h1, h2, h3, h4⟩ := decodeExec_csrs hsys hdec hx
    exact ⟨h1, h2, h3, h4⟩

end Bodies

section Event
variable {cfg : Config} {quit : Bool} {m m' : Machine} {r r' : Ref} {ev : CommitEvent}

theorem makeCommitEvent_inst (e : Exec) (dnpc : BitVec 32) :
    (makeCommitEvent e dnpc).inst = e.s.inst := by
  simp only [makeCommitEvent]
  split_ifs <;> rfl

theorem exception_of_makeCommitEvent {e : Exec} {dnpc : BitVec 32}
    (h : (makeCommitEvent e dnpc).exception = false) : e.s.exception = false := by
  cases hx : e.s.exception with
  | false => rfl
  | true =>
    simp only [makeCommitEvent, hx, if_true] at h
    cases h

/-- An event without an exception, of a word that is no `SYSTEM` instruction, comes with
unchanged CSRs. -/
theorem executeOne_csrs (h : executeOne cfg m = .ok (m', ev)) (hx : ev.exception = false)
    (hs : isSystem ev.inst = false) : SameCsrs m'.cpu m.cpu := by
  obtain ⟨e, hexec, he⟩ := ok_of_bind h
  cases he
  rw [makeCommitEvent_inst] at hs
  have hno : e.s.exception = false := exception_of_makeCommitEvent (e := e.counted) hx
  obtain ⟨h1, h2, h3, h4⟩ := execOnce_csrs hexec hs hno
  exact ⟨h1, h2, h3, h4⟩

theorem cpuExec_csrs (h : cpuExec cfg quit r = .ok r')
    (hlast : commitEventGetLast r'.ring = some ev) (hx : ev.exception = false)
    (hs : isSystem ev.inst = false) : SameCsrs r'.m.cpu r.m.cpu := by
  rcases cpuExec_cases h with ⟨hcpu, -⟩ | ⟨m, ev', hone, hcpu, hring⟩
  · rw [hcpu]
    exact ⟨rfl, rfl, rfl, rfl⟩
  · rw [hring, getLast_record] at hlast
    obtain rfl := Option.some.inj hlast
    rw [hcpu]
    exact executeOne_csrs (m := { r.m with state := .running }) hone hx hs

end Event

end Nemu

namespace Difftest

set_option autoImplicit false

open Nemu

/-! ## The two paths -/

/-- The references of a simulation: after `init`, and after any call of `step` that
returns, whatever it returns. -/
inductive Reached (cfg : Config) : Ref → Prop where
  | init (mem : Nemu.Memory) (instLimit : BitVec 64) (regs : BitVec 4 → BitVec 32)
      (pc mstatus mtvec mepc mcause : BitVec 32) :
    Reached cfg (init mem instLimit regs pc mstatus mtvec mepc mcause)
  | step {r : Ref} {quit : Bool} {dut : CommitEvent} {record : MMIOReplayRecord}
      {res : StepResult} : Reached cfg r → step cfg quit r dut record = .ok res →
    Reached cfg res.ref

/-- Between two sets of debug ports the program counter and the registers moved as the
event says, and nothing else happened to them. -/
structure Dut.Follows (before after : Dut) (ev : CommitEvent) : Prop where
  pc : after.pc = ev.nextPc
  gpr : ∀ i : BitVec 5, after.cpu.gpr i =
    if ev.hasWb = true ∧ ev.rd = i.setWidth 8 then ev.rdValue else before.cpu.gpr i

section Step
variable {cfg : Config} {quit : Bool} {r r' : Ref} {dut : CommitEvent} {record : MMIOReplayRecord}
  {before after : Dut}

theorem Reached.settled (h : Reached cfg r) : r.Settled := by
  induction h with
  | init => exact init_settled ..
  | @step r quit dut record res _ hstep ih =>
    obtain ⟨mem, r2, ref, -, hev, rfl⟩ := step_cases hstep
    have hs1 : ({ r with m.mem := mem } : Ref).Settled := ⟨ih.zero, ih.last⟩
    exact settled_of_frame (difftestStepEvent_settled hs1 hev).1 (checkEvent_frame ref).1
      (checkEvent_frame ref).2

theorem checkEvent_replay {ref : CommitEvent} (h : checkEvent cfg r ref dut = ⟨true, false, r'⟩) :
    (npcMmioReplayOk cfg r.m.mem).1 = true ∧
      r' = { r with m.mem := (npcMmioReplayOk cfg r.m.mem).2 } := by
  have hok : (checkEvent cfg r ref dut).ok = true := by rw [h]
  have href : (checkEvent cfg r ref dut).ref = r' := by rw [h]
  simp only [checkEvent] at hok href
  split_ifs at hok href with hno
  all_goals exact ⟨by simpa using hno, href.symm⟩

/-- The register path runs the reference in the same way. -/
theorem stepRegs_eq (h : step cfg quit r dut record = .ok ⟨true, false, r'⟩) (d : Dut) :
    stepRegs cfg quit r d record = .ok ⟨checkRegs r'.m.cpu d, false, r'⟩ := by
  obtain ⟨mem, r2, ref, hmem, hev, hres⟩ := step_cases h
  obtain ⟨hexec, -⟩ := cpuExec_of_stepEvent hev
  obtain ⟨hok, rfl⟩ := checkEvent_replay hres
  simp [stepRegs, hmem, hexec, Except.mapError, bind, Except.bind, pure, Except.pure, hok]

theorem step_csrs (h : step cfg quit r dut record = .ok ⟨true, false, r'⟩)
    (hx : dut.exception = false) (hs : isSystem dut.inst = false) :
    SameCsrs r'.m.cpu r.m.cpu := by
  obtain ⟨mem, r2, ref, hmem, hev, hres⟩ := step_cases h
  obtain ⟨hexec, hlast⟩ := cpuExec_of_stepEvent hev
  have hacc : Accepted ref dut := checkEvent_accepts (by rw [hres]) (by rw [hres])
  obtain ⟨-, rfl⟩ := checkEvent_replay hres
  rw [← hacc.exception] at hx
  rw [← hacc.inst] at hs
  have hsame : SameCsrs r2.m.cpu r.m.cpu :=
    cpuExec_csrs (r := { r with m.mem := mem }) hexec hlast hx hs
  exact hsame

theorem step_gpr (hs : r.Settled) (hagree : r.m.cpu.gpr = before.cpu.gpr)
    (h : step cfg quit r dut record = .ok ⟨true, false, r'⟩) (i : BitVec 5) :
    r'.m.cpu.gpr i =
      if dut.hasWb = true ∧ dut.rd = i.setWidth 8 then dut.rdValue else before.cpu.gpr i := by
  have hwide : (i.setWidth 8).setWidth 5 = i := by
    rw [BitVec.setWidth_setWidth_of_le _ (by omega), BitVec.setWidth_eq]
  obtain ⟨-, -, hgpr⟩ := step_sound hs h
  have hi := hgpr (fun k => before.cpu.gpr (k.setWidth 5)) i (by rw [hwide, hagree])
  rw [hi, writeBack]
  by_cases hn : dut.hasWb = true ∧ dut.rd = i.setWidth 8
  · rw [if_pos hn, if_pos hn.1, hn.2, Function.update_self]
  · rw [if_neg hn]
    split_ifs with hwb
    · have hne : i.setWidth 8 ≠ dut.rd := fun heq => hn ⟨hwb, heq.symm⟩
      rw [Function.update_of_ne hne, hwide]
    · exact congrArg before.cpu.gpr hwide

end Step

/-- What the register path would have said about a commit that the event path accepted:
it accepts exactly the devices whose program counter and registers moved as their event
says and whose CSRs are those of the reference. The reference changes its CSRs only in a
`SYSTEM` instruction or an exception. -/
theorem accepted_commit_registers {cfg : Config} {quit : Bool} {r r' : Ref} {dut : CommitEvent}
    {record : MMIOReplayRecord} {before after : Dut} (hr : Reached cfg r)
    (hagree : checkRegs r.m.cpu before = true)
    (hstep : step cfg quit r dut record = .ok ⟨true, false, r'⟩) :
    stepRegs cfg quit r after record = .ok ⟨checkRegs r'.m.cpu after, false, r'⟩ ∧
    (checkRegs r'.m.cpu after = true ↔
      before.Follows after dut ∧ SameCsrs r'.m.cpu after.cpu) ∧
    (dut.exception = false → isSystem dut.inst = false → SameCsrs r'.m.cpu before.cpu) := by
  obtain ⟨-, hgpr, hcsrs⟩ := checkRegs_iff.mp hagree
  have hpc : r'.m.cpu.pc = dut.nextPc := (step_sound hr.settled hstep).2.1
  have hregs := step_gpr hr.settled hgpr hstep
  refine ⟨stepRegs_eq hstep after, ?_, fun hx hs => (step_csrs hstep hx hs).trans hcsrs⟩
  rw [checkRegs_iff, hpc]
  constructor
  · rintro ⟨hpc', hgpr', hc⟩
    refine ⟨⟨hpc'.symm, ?_⟩, hc⟩
    intro i
    rw [← hgpr', hregs i]
  · rintro ⟨hf, hc⟩
    refine ⟨hf.pc.symm, ?_, hc⟩
    funext i
    rw [hregs i, hf.gpr i]

/-- The debug ports around `luiCommit`. -/
def luiBefore : Dut := ⟨fun _ => 0#32, 0x80000000#32, 0#32, 0#32, 0#32, 0#32⟩

def luiAfter : Dut :=
  ⟨Function.update (fun _ => 0#32) 5#4 0x12345000#32, 0x80000004#32, 0#32, 0#32, 0#32, 0#32⟩

theorem accepted_commit_registers_lui :
    ∃ r', step refConfig false luiStart luiCommit.event luiCommit.record = .ok ⟨true, false, r'⟩ ∧
      Reached refConfig luiStart ∧ checkRegs luiStart.m.cpu luiBefore = true ∧
      stepRegs refConfig false luiStart luiAfter luiCommit.record = .ok ⟨true, false, r'⟩ := by
  have hok : ((step refConfig false luiStart luiCommit.event luiCommit.record).toOption.any
      fun res => res.ok && !res.bothEbreak) = true := by decide +kernel
  obtain ⟨⟨ok, both, r'⟩, hstep, hres⟩ := ok_of_any hok
  obtain ⟨rfl, rfl⟩ : ok = true ∧ both = false := by simpa using hres
  have hreach : Reached refConfig luiStart := .init ..
  have hagree : checkRegs luiStart.m.cpu luiBefore = true := by decide +kernel
  obtain ⟨hregs, hiff, hcsrs⟩ :=
    @accepted_commit_registers _ _ _ _ _ _ _ luiAfter hreach hagree hstep
  have hfollows : luiBefore.Follows luiAfter luiCommit.event := ⟨rfl, by decide +kernel⟩
  have hsame : SameCsrs r'.m.cpu luiAfter.cpu :=
    (hcsrs rfl (by decide)).trans ⟨rfl, rfl, rfl, rfl⟩
  refine ⟨r', hstep, hreach, hagree, ?_⟩
  rw [hregs, hiff.mpr ⟨hfollows, hsame⟩]

/-- A fetch from an address without memory. -/
def faultStart : Ref :=
  init luiMemory 0#64 (fun _ => 0#32) 0x10#32 0x00001800#32 0x80000100#32 0#32 0#32

def faultEvent : CommitEvent :=
  ⟨1#64, 1#64, 0x10#32, 0#32, 0x80000100#32, false, 0#8, 0#32, true, 1#32⟩

def faultBefore : Dut :=
  ⟨fun _ => 0#32, 0x10#32, 0x00001800#32, 0x80000100#32, 0#32, 0#32⟩

/-- The device enters the handler with the right cause and forgets to write `mepc`. -/
def faultAfter : Dut := { faultBefore with pc := 0x80000100#32, mcause := 1#32 }

theorem event_path_misses_mepc :
    ∃ r', Reached refConfig faultStart ∧ checkRegs faultStart.m.cpu faultBefore = true ∧
      step refConfig false faultStart faultEvent luiCommit.record = .ok ⟨true, false, r'⟩ ∧
      faultBefore.Follows faultAfter faultEvent ∧ checkRegs r'.m.cpu faultAfter = false := by
  have hok : ((step refConfig false faultStart faultEvent luiCommit.record).toOption.any
      fun res => res.ok && !res.bothEbreak && res.ref.m.cpu.mepc == 0x10#32) = true := by
    decide +kernel
  obtain ⟨⟨ok, both, r'⟩, hstep, hres⟩ := ok_of_any hok
  obtain ⟨⟨rfl, rfl⟩, hmepc⟩ : (ok = true ∧ both = false) ∧ r'.m.cpu.mepc = 0x10#32 := by
    simpa using hres
  refine ⟨r', .init .., by decide +kernel, hstep, ⟨rfl, by decide +kernel⟩, ?_⟩
  rw [← Bool.not_eq_true, checkRegs_iff]
  rintro ⟨-, -, hc⟩
  rw [hc.mepc] at hmepc
  cases hmepc

end Difftest
