import AiOsoc.Difftest.Lockstep
import AiOsoc.Difftest.Reference

/-!
# What a passing event test proves

The event of the emulator is built from the opcode bits, not from the write that
took place. Here it is shown that for every word, executed or refused, it still
says what happened to the registers, and that a device under test whose events
pass therefore keeps the registers and the program counter of the emulator.
-/

namespace Nemu

set_option autoImplicit false

open Difftest

/-! ## Which patterns write a register -/

/-- The body of the pattern assigns `R(rd)`. -/
def Name.setsRd : Name → Bool
  | .sb | .sh | .sw | .beq | .bne | .blt | .bge | .bltu | .bgeu
  | .ecall | .mret | .ebreak | .inv => false
  | _ => true

section Patterns
variable {inst : BitVec 32}

/-- A field that a pattern fixes. -/
theorem field_of_masked {key mask : BitVec 64} {lo w : Nat}
    (hm : inst.setWidth 64 &&& mask = key) (hall : mask.extractLsb' lo w = BitVec.allOnes w) :
    inst.extractLsb' lo w = key.extractLsb' lo w := by
  have hwide : (inst.setWidth 64).extractLsb' lo w = inst.extractLsb' lo w := by
    apply BitVec.eq_of_getLsbD_eq
    intro i hi
    simp only [BitVec.getLsbD_extractLsb', BitVec.getLsbD_setWidth]
    grind
  rw [← hm, BitVec.extractLsb'_and, hall, BitVec.and_allOnes, hwide]

/-- The pattern that is executed is in the table, and the word matches it. -/
theorem mem_of_matchInst {r : Name × InstType} (h : matchInst inst = some r) :
    ∃ key mask shift, ((key, mask, shift), r) ∈ decodedPats ∧
      (inst.setWidth 64 >>> shift) &&& mask = key := by
  rw [matchInst, Option.map_eq_some_iff] at h
  obtain ⟨p, hfind, rfl⟩ := h
  have hmem : (patternDecode p.1, p.2) ∈ decodedPats := by
    rw [← instpats_decoded]
    exact List.mem_map_of_mem (List.mem_of_find?_eq_some hfind)
  have hmatch := List.find?_some hfind
  exact ⟨_, _, _, hmem, eq_of_beq hmatch⟩

/-- Every pattern that sets `rd` has an opcode of `make_commit_event`, and a CSR pattern
has a nonzero `funct3`. -/
theorem pattern_opcode : ∀ p ∈ decodedPats, p.2.1.setsRd = true →
    p.1.2.2 = 0 ∧ p.1.2.1.extractLsb' 0 7 = BitVec.allOnes 7 ∧
    p.1.1.extractLsb' 0 7 ∈
      [0b0110111#7, 0b0010111#7, 0b1101111#7, 0b1100111#7, 0b0000011#7, 0b0010011#7, 0b0110011#7,
        0b1110011#7] ∧
    (p.1.1.extractLsb' 0 7 = 0b1110011#7 →
      p.1.2.1.extractLsb' 12 3 = BitVec.allOnes 3 ∧ p.1.1.extractLsb' 12 3 ≠ 0b000#3) := by
  decide +kernel

theorem writesBack_of_setsRd {name : Name} {type : InstType}
    (h : matchInst inst = some (name, type)) (hs : name.setsRd = true)
    (hrd : Rv32e.rd inst ≠ 0#5) : writesBack inst = true := by
  obtain ⟨key, mask, shift, hmem, hm⟩ := mem_of_matchInst h
  obtain ⟨rfl, hop, hin, hsys⟩ := pattern_opcode _ hmem hs
  rw [BitVec.ushiftRight_zero] at hm
  have hopcode : Rv32e.opcode inst = key.extractLsb' 0 7 := field_of_masked hm hop
  rw [writesBack_iff, hopcode]
  refine ⟨by simpa using hin, hrd, ?_⟩
  rintro ⟨hc, hf3⟩
  obtain ⟨hfull, hne⟩ := hsys hc
  exact hne ((field_of_masked hm hfull).symm.trans hf3)

end Patterns

/-! ## What an instruction does to the registers -/

/-- Between `e` and `e'` only register `rd` may change, and only if `sets` holds and no
exception is raised. -/
structure Exec.Writes (e e' : Exec) (sets : Bool) (rd : BitVec 5) : Prop where
  inst : e'.s.inst = e.s.inst
  only : ∀ i, e'.m.cpu.gpr i ≠ e.m.cpu.gpr i → sets = true ∧ i = rd ∧ e'.s.exception = false

section Bodies
variable {cfg : Config} {e e' : Exec} {o : Operands} {sets : Bool} {rd : BitVec 5}

theorem Exec.writes_of_gpr (hinst : e'.s.inst = e.s.inst)
    (hgpr : e'.m.cpu.gpr = e.m.cpu.gpr) : e.Writes e' sets rd := by
  refine ⟨hinst, ?_⟩
  intro i hi
  exact absurd (congrFun hgpr i) hi

theorem Exec.writes_of_update {v : BitVec 32} (hinst : e'.s.inst = e.s.inst)
    (hx : e'.s.exception = false)
    (hgpr : e'.m.cpu.gpr = Function.update e.m.cpu.gpr rd v) : e.Writes e' true rd := by
  refine ⟨hinst, ?_⟩
  intro i hi
  refine ⟨rfl, ?_, hx⟩
  by_contra hne
  apply hi
  rw [hgpr, Function.update_of_ne hne]

theorem ok_of_bind {ε α β : Type} {x : Except ε α} {f : α → Except ε β} {b : β}
    (h : x >>= f = .ok b) : ∃ a, x = .ok a ∧ f a = .ok b := by
  cases x with
  | error err => cases h
  | ok a => exact ⟨a, rfl, h⟩

theorem ok_of_any {ε α : Type} {x : Except ε α} {p : α → Bool} (h : x.toOption.any p = true) :
    ∃ a, x = .ok a ∧ p a = true := by
  cases x with
  | error err => cases h
  | ok a => exact ⟨a, rfl, h⟩

theorem invalidInst_gpr {m m' : Machine} {pc : BitVec 32} (h : invalidInst cfg m pc = .ok m') :
    m'.cpu.gpr = m.cpu.gpr := by
  obtain ⟨r1, -, h⟩ := ok_of_bind h
  obtain ⟨r2, -, h⟩ := ok_of_bind h
  cases h
  rfl

theorem csrRead_gpr {m m' : Machine} {addr t : BitVec 32} (h : csrRead cfg m addr = .ok (t, m')) :
    m'.cpu.gpr = m.cpu.gpr := by
  unfold csrRead at h
  split_ifs at h <;> first | (cases h; rfl) | skip
  cases hi : invalidInst cfg m m.cpu.pc with
  | error a =>
    rw [hi] at h
    cases h
  | ok m1 =>
    rw [hi] at h
    cases h
    exact invalidInst_gpr hi

theorem csrWrite_gpr {m m' : Machine} {addr v : BitVec 32} (h : csrWrite cfg m addr v = .ok m') :
    m'.cpu.gpr = m.cpu.gpr := by
  unfold csrWrite at h
  split_ifs at h <;> first | (cases h; rfl) | exact invalidInst_gpr h

theorem Exec.csr_writes {writes : Bool} {next : BitVec 32 → BitVec 32}
    (hx : e.s.exception = false) (h : e.csr cfg o writes next = .ok e') :
    e.Writes e' true o.rd := by
  obtain ⟨⟨t, m⟩, hr, h⟩ := ok_of_bind h
  have hread := csrRead_gpr hr
  simp only at h
  split_ifs at h
  · obtain ⟨m', hw, h⟩ := ok_of_bind h
    cases h
    have hgpr : m'.cpu.gpr = e.m.cpu.gpr := (csrWrite_gpr hw).trans hread
    refine writes_of_update rfl hx (v := t) ?_
    simp only [Exec.setR, hgpr]
  · cases h
    refine writes_of_update rfl hx (v := t) ?_
    simp only [Exec.setR, hread]

theorem Exec.load_writes {len : Nat} {ext : BitVec 32 → BitVec 32} (hx : e.s.exception = false)
    (h : e.load cfg o len ext = .ok e') : e.Writes e' true o.rd := by
  unfold Exec.load at h
  simp only at h
  split_ifs at h
  · obtain ⟨r, -, h⟩ := ok_of_bind h
    cases h
    exact writes_of_update rfl hx (v := ext r.1) rfl
  · cases h
    exact writes_of_gpr rfl rfl

theorem Exec.store_writes {len : Nat} (h : e.store cfg o len = .ok e') :
    e.Writes e' sets rd := by
  unfold Exec.store at h
  simp only at h
  split_ifs at h
  · obtain ⟨r, -, h⟩ := ok_of_bind h
    cases h
    exact writes_of_gpr rfl rfl
  · cases h
    exact writes_of_gpr rfl rfl

theorem Exec.set_writes {v : BitVec 32} (hx : e.s.exception = false)
    (h : .ok (e.setR o.rd v) = (.ok e' : Except Abort Exec)) : e.Writes e' true o.rd := by
  cases h
  exact writes_of_update rfl hx (v := v) rfl

theorem Exec.branch_writes {taken : Bool} {pc : BitVec 32}
    (h : .ok (if taken then e.jump pc else e) = (.ok e' : Except Abort Exec)) :
    e.Writes e' sets rd := by
  cases h
  cases taken <;> exact writes_of_gpr rfl rfl

theorem execBody_writes {name : Name} (hx : e.s.exception = false)
    (h : execBody cfg name o e = .ok e') : e.Writes e' name.setsRd o.rd := by
  cases name with
  | lui | auipc | addi | slti | sltiu | xori | ori | andi | slli | srli | srai
  | add | sub | mul | mulh | mulhsu | mulhu | div | divu | rem | remu
  | sll | srl | sra | slt | sltu | xor | or | and => exact Exec.set_writes hx h
  | lb | lh | lw | lbu | lhu => exact Exec.load_writes hx h
  | sb | sh | sw => exact Exec.store_writes h
  | beq | bne | blt | bge | bltu | bgeu => exact Exec.branch_writes h
  | jal | jalr =>
    cases h
    exact Exec.writes_of_update rfl hx (v := e.s.snpc) rfl
  | csrrw | csrrs | csrrc | csrrwi | csrrsi | csrrci =>
    simp only [execBody] at h
    exact Exec.csr_writes hx h
  | ecall | mret | ebreak =>
    cases h
    exact Exec.writes_of_gpr rfl rfl
  | inv =>
    obtain ⟨m, hm, h⟩ := ok_of_bind h
    cases h
    exact Exec.writes_of_gpr rfl (invalidInst_gpr hm)

theorem decodeOperand_rd (inst : BitVec 32) (gpr : BitVec 5 → BitVec 32) (type : InstType) :
    (decodeOperand inst gpr type).rd = Rv32e.rd inst := by
  cases type <;> exact rd_eq inst

theorem Exec.setR_self (v : BitVec 32) : (e.setR rd v).m.cpu.gpr rd = v := Function.update_self ..

theorem Exec.setR_ne {i : BitVec 5} (h : i ≠ rd) (v : BitVec 32) :
    (e.setR rd v).m.cpu.gpr i = e.m.cpu.gpr i := Function.update_of_ne h ..

/-- A register other than `x0` changes only where the flag of the event says so. -/
theorem decodeExec_writes (hx : e.s.exception = false) (h : decodeExec cfg e = .ok e') :
    e'.s.inst = e.s.inst ∧ e'.m.cpu.gpr 0#5 = 0#32 ∧
      ∀ i ≠ 0#5, e'.m.cpu.gpr i ≠ e.m.cpu.gpr i →
        writesBack e.s.inst = true ∧ i = Rv32e.rd e.s.inst ∧ e'.s.exception = false := by
  unfold decodeExec at h
  cases hm : matchInst (e.jump e.s.snpc).s.inst with
  | none =>
    simp only [hm] at h
    cases h
    refine ⟨rfl, Exec.setR_self 0#32, ?_⟩
    intro i hi hne
    exact absurd (Exec.setR_ne hi 0#32) hne
  | some r =>
    obtain ⟨name, type⟩ := r
    simp only [hm] at h
    obtain ⟨e1, hbody, h⟩ := ok_of_bind h
    cases h
    have hx' : (e.jump e.s.snpc).s.exception = false := hx
    obtain ⟨hinst, honly⟩ := execBody_writes hx' hbody
    refine ⟨hinst, Exec.setR_self 0#32, ?_⟩
    intro i hi hne
    rw [Exec.setR_ne hi] at hne
    obtain ⟨hsets, rfl, hexc⟩ := honly i hne
    rw [decodeOperand_rd] at hi ⊢
    exact ⟨writesBack_of_setsRd hm hsets hi, rfl, hexc⟩

theorem execOnce_writes {m : Machine} (h0 : m.cpu.gpr 0#5 = 0#32) (h : execOnce cfg m = .ok e) :
    e.m.cpu.gpr 0#5 = 0#32 ∧
      ∀ i, e.m.cpu.gpr i ≠ m.cpu.gpr i →
        writesBack e.s.inst = true ∧ i = Rv32e.rd e.s.inst ∧ e.s.exception = false := by
  obtain ⟨e1, hexec, he⟩ := ok_of_bind h
  cases he
  unfold isaExecOnce at hexec
  split_ifs at hexec
  · -- the fetch faults before anything is executed
    cases hexec
    refine ⟨h0, ?_⟩
    intro i hi
    exact absurd rfl hi
  · obtain ⟨⟨inst, mem⟩, -, hdec⟩ := ok_of_bind hexec
    obtain ⟨hinst, hzero, honly⟩ := decodeExec_writes rfl hdec
    refine ⟨hzero, ?_⟩
    intro i hi
    have hne : i ≠ 0#5 := by
      rintro rfl
      exact hi (hzero.trans h0.symm)
    simp only [hinst]
    exact honly i hne hi

end Bodies

/-! ## The event describes the step -/

/-- What an event says about the machine it left behind. -/
structure Describes (ev : CommitEvent) (cpu : Cpu) : Prop where
  pc : ev.nextPc = cpu.pc
  value : ∀ i : BitVec 5, ev.hasWb = true → ev.rd = i.setWidth 8 → cpu.gpr i = ev.rdValue

/-- The two fields of an event that say which register was written. -/
def Names (ev : CommitEvent) (i : BitVec 5) : Prop := ev.hasWb = true ∧ ev.rd = i.setWidth 8

section Event
variable {cfg : Config} {m m' : Machine} {e : Exec} {ev : CommitEvent}

/-- The event of an instruction without an exception, aborted or not. -/
theorem makeCommitEvent_write (dnpc : BitVec 32) (hx : e.s.exception = false) :
    (makeCommitEvent e dnpc).hasWb = writesBack e.s.inst ∧
      (makeCommitEvent e dnpc).rd = (Rv32e.rd e.s.inst).setWidth 8 ∧
      (writesBack e.s.inst = true →
        (makeCommitEvent e dnpc).rdValue = e.m.cpu.gpr (Rv32e.rd e.s.inst)) := by
  have hrd : ((Rv32e.rd e.s.inst).setWidth 32).setWidth 8 = (Rv32e.rd e.s.inst).setWidth 8 :=
    BitVec.setWidth_setWidth_of_le _ (by omega)
  have hlt : (Rv32e.rd e.s.inst).setWidth 32 < 32#32 := by
    rw [BitVec.lt_def, BitVec.toNat_setWidth_of_le (by omega)]
    exact (Rv32e.rd e.s.inst).isLt
  simp only [makeCommitEvent, masked_rd, hx, Bool.false_eq_true, if_false]
  split_ifs <;> simp_all

theorem makeCommitEvent_nextPc (dnpc : BitVec 32) : (makeCommitEvent e dnpc).nextPc = dnpc := by
  simp only [makeCommitEvent]
  split_ifs <;> rfl

theorem makeCommitEvent_raised (dnpc : BitVec 32) (hx : e.s.exception = true) :
    (makeCommitEvent e dnpc).hasWb = false := by
  simp only [makeCommitEvent, hx, if_true]

/-- Every executed word: the event names the register that may have changed and its value. -/
theorem executeOne_describes (h0 : m.cpu.gpr 0#5 = 0#32)
    (h : executeOne cfg m = .ok (m', ev)) :
    m'.cpu.gpr 0#5 = 0#32 ∧ Describes ev m'.cpu ∧
      ∀ i, ¬ Names ev i → m'.cpu.gpr i = m.cpu.gpr i := by
  obtain ⟨e, hexec, he⟩ := ok_of_bind h
  cases he
  obtain ⟨hzero, honly⟩ := execOnce_writes h0 hexec
  have hinj : ∀ i j : BitVec 5, i.setWidth 8 = j.setWidth 8 → i = j := by
    intro i j hij
    apply BitVec.eq_of_toNat_eq
    have h' := congrArg BitVec.toNat hij
    rwa [BitVec.toNat_setWidth_of_le (by omega), BitVec.toNat_setWidth_of_le (by omega)] at h'
  refine ⟨hzero, ⟨makeCommitEvent_nextPc _, ?_⟩, ?_⟩
  · intro i hwb hrd
    cases hx : e.s.exception with
    | true =>
      rw [makeCommitEvent_raised (e := e.counted) _ hx] at hwb
      cases hwb
    | false =>
      obtain ⟨hflag, hreg, hval⟩ := makeCommitEvent_write (e := e.counted) e.counted.m.cpu.pc hx
      rw [hflag] at hwb
      rw [hreg] at hrd
      obtain rfl := hinj _ _ hrd
      exact (hval hwb).symm
  · intro i hnames
    by_contra hne
    obtain ⟨hwb, rfl, hx⟩ := honly i hne
    obtain ⟨hflag, hreg, -⟩ := makeCommitEvent_write (e := e.counted) e.counted.m.cpu.pc hx
    exact hnames ⟨hflag.trans hwb, hreg⟩

end Event

/-! ## The reference between two calls -/

/-- `x0` is zero, and the last event of the ring describes the machine. It still does when
the emulator has stopped and hands out the same event again. -/
structure Ref.Settled (r : Ref) : Prop where
  zero : r.m.cpu.gpr 0#5 = 0#32
  last : ∀ ev, commitEventGetLast r.ring = some ev → Describes ev r.m.cpu

section Ref
variable {cfg : Config} {quit : Bool} {r r' : Ref} {ev : CommitEvent}

theorem deviceUpdate_frame : (deviceUpdate cfg quit r).m.cpu = r.m.cpu ∧
    (deviceUpdate cfg quit r).ring = r.ring := by
  unfold deviceUpdate
  split_ifs <;> exact ⟨rfl, rfl⟩

/-- What the last event says about the registers before and after. -/
def Ref.Follows (r r' : Ref) : Prop :=
  ∀ ev, commitEventGetLast r'.ring = some ev → ∀ i, ¬ Names ev i → r'.m.cpu.gpr i = r.m.cpu.gpr i

/-- A call of the emulator leaves its registers and its ring alone, or executes one
instruction and records it. -/
theorem cpuExec_cases (h : cpuExec cfg quit r = .ok r') :
    (r'.m.cpu = r.m.cpu ∧ r'.ring = r.ring) ∨
    ∃ m ev, executeOne cfg { r.m with state := .running } = .ok (m, ev) ∧ r'.m.cpu = m.cpu ∧
      r'.ring = commitEventRecord r.ring ev := by
  have hran : ∀ {r1 : Ref}, execute cfg quit { r with m.state := .running } = .ok r1 →
      (r1.m.cpu = r.m.cpu ∧ r1.ring = r.ring) ∨
      ∃ m ev, executeOne cfg { r.m with state := .running } = .ok (m, ev) ∧ r1.m.cpu = m.cpu ∧
        r1.ring = commitEventRecord r.ring ev := by
    intro r1 h1
    unfold execute at h1
    split_ifs at h1
    · cases h1
      exact Or.inl ⟨rfl, rfl⟩
    · obtain ⟨⟨m, ev⟩, hone, h1⟩ := ok_of_bind h1
      refine Or.inr ⟨m, ev, hone, ?_⟩
      cases h1
      split_ifs
      · exact ⟨rfl, rfl⟩
      · exact ⟨by rw [deviceUpdate_frame.1], deviceUpdate_frame.2⟩
  unfold cpuExec at h
  split at h
  · cases h
    exact Or.inl ⟨rfl, rfl⟩
  · cases h
    exact Or.inl ⟨rfl, rfl⟩
  · cases h
    exact Or.inl ⟨rfl, rfl⟩
  all_goals
    obtain ⟨r1, hexec, h⟩ := ok_of_bind h
    have hr := hran hexec
    cases h
    split_ifs
    · exact hr
    · exact hr

theorem cpuExec_settled (hs : r.Settled) (h : cpuExec cfg quit r = .ok r') :
    r'.Settled ∧ r.Follows r' := by
  rcases cpuExec_cases h with ⟨hcpu, hring⟩ | ⟨m, ev, hone, hcpu, hring⟩
  · refine ⟨⟨by rw [hcpu, hs.zero], ?_⟩, fun _ _ _ _ => by rw [hcpu]⟩
    intro ev hev
    rw [hring] at hev
    rw [hcpu]
    exact hs.last ev hev
  · have h0 : ({ r.m with state := .running } : Machine).cpu.gpr 0#5 = 0#32 := hs.zero
    obtain ⟨hzero, hdesc, hframe⟩ := executeOne_describes h0 hone
    have hlast : ∀ ev', commitEventGetLast r'.ring = some ev' → ev' = ev := by
      intro ev' hev
      rw [hring, getLast_record] at hev
      exact (Option.some.inj hev).symm
    refine ⟨⟨by rw [hcpu, hzero], ?_⟩, ?_⟩
    · intro ev' hev
      rw [hlast ev' hev, hcpu]
      exact hdesc
    · intro ev' hev i hi
      rw [hlast ev' hev] at hi
      rw [hcpu]
      exact hframe i hi

/-- The event handed out is the last one of the ring. -/
theorem cpuExec_of_stepEvent (h : difftestStepEvent cfg quit r = .ok (r', ev)) :
    cpuExec cfg quit r = .ok r' ∧ commitEventGetLast r'.ring = some ev := by
  obtain ⟨r1, hexec, h⟩ := ok_of_bind h
  cases hc : cpuExec cfg quit r with
  | error a =>
    rw [hc] at hexec
    cases hexec
  | ok r2 =>
    rw [hc] at hexec
    obtain rfl : r2 = r1 := Except.ok.inj hexec
    cases hg : commitEventGetLast r2.ring with
    | none =>
      simp only [hg] at h
      cases h
    | some ev' =>
      simp only [hg] at h
      cases h
      exact ⟨rfl, hg⟩

theorem difftestStepEvent_settled (hs : r.Settled)
    (h : difftestStepEvent cfg quit r = .ok (r', ev)) :
    r'.Settled ∧ Describes ev r'.m.cpu ∧ ∀ i, ¬ Names ev i → r'.m.cpu.gpr i = r.m.cpu.gpr i := by
  obtain ⟨hexec, hlast⟩ := cpuExec_of_stepEvent h
  obtain ⟨hs', hfollows⟩ := cpuExec_settled hs hexec
  exact ⟨hs', hs'.last _ hlast, hfollows _ hlast⟩

end Ref

end Nemu

namespace Difftest

set_option autoImplicit false

open Nemu

/-! ## Runs of the checker -/

/-- A commit as the checker receives it, with what the host does meanwhile. -/
structure Commit where
  event : CommitEvent
  record : MMIOReplayRecord
  quit : Bool

/-- `Difftest::step` returns true, without a common `ebreak`, for each of the commits. -/
inductive Passes (cfg : Config) : Ref → List Commit → Ref → Prop
  | nil (r : Ref) : Passes cfg r [] r
  | cons {r r' r'' : Ref} {c : Commit} {cs : List Commit}
      (hstep : step cfg c.quit r c.event c.record = .ok ⟨true, false, r'⟩)
      (hrest : Passes cfg r' cs r'') : Passes cfg r (c :: cs) r''

/-- The register file of the device under test after a commit. -/
def writeBack (gpr : BitVec 8 → BitVec 32) (ev : CommitEvent) : BitVec 8 → BitVec 32 :=
  if ev.hasWb then Function.update gpr ev.rd ev.rdValue else gpr

def dutGpr (gpr : BitVec 8 → BitVec 32) (cs : List Commit) : BitVec 8 → BitVec 32 :=
  cs.foldl (fun gpr c => writeBack gpr c.event) gpr

def dutPc (pc : BitVec 32) (cs : List Commit) : BitVec 32 :=
  cs.foldl (fun _ c => c.event.nextPc) pc

section Step
variable {cfg : Config} {quit : Bool} {r r' : Ref} {dut : CommitEvent} {record : MMIOReplayRecord}

theorem checkEvent_frame (ref : CommitEvent) :
    (checkEvent cfg r ref dut).ref.m.cpu = r.m.cpu ∧
      (checkEvent cfg r ref dut).ref.ring = r.ring := by
  simp only [checkEvent]
  split_ifs <;> exact ⟨rfl, rfl⟩

theorem checkEvent_accepts {ref : CommitEvent} (hok : (checkEvent cfg r ref dut).ok = true)
    (hb : (checkEvent cfg r ref dut).bothEbreak = false) : Accepted ref dut := by
  rw [← commitEventCompare_iff]
  simp only [checkEvent] at hok hb
  split_ifs at hok hb
  exact hok

theorem settled_of_frame (hs : r.Settled) (hcpu : r'.m.cpu = r.m.cpu) (hring : r'.ring = r.ring) :
    r'.Settled := by
  refine ⟨by rw [hcpu, hs.zero], ?_⟩
  intro ev hev
  rw [hring] at hev
  rw [hcpu]
  exact hs.last ev hev

theorem step_cases {res : StepResult} (h : step cfg quit r dut record = .ok res) :
    ∃ mem r2 ref, setMmioReplay cfg r.m.mem record = .ok mem ∧
      difftestStepEvent cfg quit { r with m.mem := mem } = .ok (r2, ref) ∧
      checkEvent cfg r2 ref dut = res := by
  obtain ⟨mem, hmem, h⟩ := ok_of_bind h
  obtain ⟨⟨r2, ref⟩, hstep, h⟩ := ok_of_bind h
  exact ⟨mem, r2, ref, hmem, hstep, Except.ok.inj h⟩

/-- An accepted commit moves both sides alike. -/
theorem step_sound (hs : r.Settled) (h : step cfg quit r dut record = .ok ⟨true, false, r'⟩) :
    r'.Settled ∧ r'.m.cpu.pc = dut.nextPc ∧
      ∀ (gpr : BitVec 8 → BitVec 32) (i : BitVec 5), r.m.cpu.gpr i = gpr (i.setWidth 8) →
        r'.m.cpu.gpr i = writeBack gpr dut (i.setWidth 8) := by
  obtain ⟨mem, r2, ref, -, hstep, hres⟩ := step_cases h
  have hs1 : ({ r with m.mem := mem } : Ref).Settled := ⟨hs.zero, hs.last⟩
  obtain ⟨hs2, hdesc, hframe⟩ := difftestStepEvent_settled hs1 hstep
  have hacc : Accepted ref dut := checkEvent_accepts (by rw [hres]) (by rw [hres])
  have hcpu : r'.m.cpu = r2.m.cpu ∧ r'.ring = r2.ring := by
    have hf : (checkEvent cfg r2 ref dut).ref.m.cpu = r2.m.cpu ∧
      (checkEvent cfg r2 ref dut).ref.ring = r2.ring := checkEvent_frame ref
    rwa [hres] at hf
  refine ⟨settled_of_frame hs2 hcpu.1 hcpu.2, ?_, ?_⟩
  · rw [hcpu.1, ← hdesc.pc, hacc.nextPc]
  · intro gpr i hi
    rw [hcpu.1, writeBack, ← hacc.hasWb]
    by_cases hn : Names ref i
    · rw [hdesc.value i hn.1 hn.2, if_pos hn.1, ← hacc.rd hn.1, hn.2, Function.update_self,
        hacc.rdValue hn.1]
    · rw [hframe i hn, hi]
      split_ifs with hwb
      · have hne : i.setWidth 8 ≠ dut.rd := by
          intro heq
          exact hn ⟨hwb, (hacc.rd hwb).trans heq.symm⟩
        rw [Function.update_of_ne hne]
      · rfl

end Step

theorem passes_sound {cfg : Config} {r r' : Ref} {cs : List Commit} (hpass : Passes cfg r cs r')
    (hs : r.Settled) (gpr : BitVec 8 → BitVec 32) (pc : BitVec 32) (hpc : r.m.cpu.pc = pc) :
    r'.m.cpu.pc = dutPc pc cs ∧
      ∀ i : BitVec 5, r.m.cpu.gpr i = gpr (i.setWidth 8) →
        r'.m.cpu.gpr i = dutGpr gpr cs (i.setWidth 8) := by
  induction hpass generalizing gpr pc with
  | nil r => exact ⟨hpc, fun i hi => hi⟩
  | @cons r r1 r' c cs hstep hrest ih =>
    obtain ⟨hs1, hpc1, hgpr1⟩ := step_sound hs hstep
    obtain ⟨hpc', hgpr'⟩ := ih hs1 (writeBack gpr c.event) c.event.nextPc hpc1
    refine ⟨hpc', ?_⟩
    intro i hi
    exact hgpr' i (hgpr1 gpr i hi)

theorem init_settled (mem : Nemu.Memory) (instLimit : BitVec 64) (regs : BitVec 4 → BitVec 32)
    (pc mstatus mtvec mepc mcause : BitVec 32) :
    (init mem instLimit regs pc mstatus mtvec mepc mcause).Settled := by
  refine ⟨rfl, ?_⟩
  intro ev hev
  cases hev

/-- A passing event test is sound for the registers and the program counter: each register
that agrees after `init` still agrees after any number of commits that passed, whatever the
program, the memory and the records are. -/
theorem event_difftest_sound (cfg : Config) (mem : Nemu.Memory) (instLimit : BitVec 64)
    (regs : BitVec 4 → BitVec 32) (pc mstatus mtvec mepc mcause : BitVec 32)
    (gpr : BitVec 8 → BitVec 32) (cs : List Commit) (r : Ref)
    (hpass : Passes cfg (init mem instLimit regs pc mstatus mtvec mepc mcause) cs r) :
    r.m.cpu.pc = dutPc pc cs ∧
      ∀ i : BitVec 5,
        (init mem instLimit regs pc mstatus mtvec mepc mcause).m.cpu.gpr i = gpr (i.setWidth 8) →
        r.m.cpu.gpr i = dutGpr gpr cs (i.setWidth 8) :=
  passes_sound hpass (init_settled mem instLimit regs pc mstatus mtvec mepc mcause) gpr pc rfl

/-- `lui x5, 0x12345` at the reset address. -/
def luiMemory : Nemu.Memory where
  host _ k := (0x123452b7#32 >>> (8 * k)).setWidth 8
  space _ _ := 0#8
  mmioReplay := ⟨false, false, 0#32, 0, 0#8, 0#32, 0#32⟩
  mmioReplayMismatch := false
  nrGuestInst := 0#64
  output := []

def luiCommit : Commit where
  event := ⟨1#64, 1#64, 0x80000000#32, 0x123452b7#32, 0x80000004#32, true, 5#8, 0x12345000#32,
    false, 0#32⟩
  record := ⟨false, false, 0#32, 0, 0#8, 0#32, 0#32⟩
  quit := false

def luiStart : Ref := init luiMemory 0#64 (fun _ => 0#32) 0x80000000#32 0#32 0#32 0#32 0#32

theorem event_difftest_sound_lui : ∃ r, Passes refConfig luiStart [luiCommit] r ∧
    r.m.cpu.pc = 0x80000004#32 ∧ r.m.cpu.gpr 5#5 = 0x12345000#32 := by
  have hok : ((step refConfig false luiStart luiCommit.event luiCommit.record).toOption.any
      fun res => res.ok && !res.bothEbreak) = true := by decide +kernel
  obtain ⟨⟨ok, both, r⟩, hstep, hres⟩ := ok_of_any hok
  obtain ⟨rfl, rfl⟩ : ok = true ∧ both = false := by simpa using hres
  have hpass : Passes refConfig luiStart [luiCommit] r := .cons hstep (.nil r)
  obtain ⟨hpc, hgpr⟩ := event_difftest_sound refConfig luiMemory 0#64 (fun _ => 0#32)
    0x80000000#32 0#32 0#32 0#32 0#32 (fun _ => 0#32) [luiCommit] r hpass
  exact ⟨r, hpass, hpc, hgpr 5#5 rfl⟩

end Difftest
