import Mathlib.Order.BooleanAlgebra.Set
import AiOsoc.Minirv.Program

/-!
# The expanded program runs as the program does

Every line of a program is matched by its code: the registers that the compiler
uses and the memory outside what the macros overwrite agree, and the pc is where
the layout puts the next line.
-/

namespace Minirv

set_option autoImplicit false

open Rv32e ByteMemory Relation

/-! ## Scratch words of a memory -/

def Work.of (sym : Symbols) (spv : BitVec 32) (m : Memory) : Work where
  word n := loadWord m (slot spv n 0)
  same i := m (sym.cell i)

theorem byteAt_loadWord (m : Memory) (a : BitVec 32) {b : Nat} (hb : b < 4) :
    byteAt (loadWord m a) b = m (a + BitVec.ofNat 32 b) := by
  obtain rfl | rfl | rfl | rfl : b = 0 ∨ b = 1 ∨ b = 2 ∨ b = 3 := by omega
  · rw [BitVec.add_zero]
    exact byteAt_ofBytes_0 ..
  · exact byteAt_ofBytes_1 ..
  · exact byteAt_ofBytes_2 ..
  · exact byteAt_ofBytes_3 ..

theorem fill_of (sym : Symbols) (spv : BitVec 32) (m : Memory) :
    (Work.of sym spv m).fill sym spv m = m := by
  funext a
  by_cases ha : InScratch spv a
  · have hp : place spv a < 28 := ha
    have hslot : slot spv (7 - place spv a / 4) (place spv a % 4) = a := by
      have hplace : place spv (slot spv (7 - place spv a / 4) (place spv a % 4)) = place spv a := by
        rw [place_slot (by omega) (by omega)]
        omega
      exact place_inj.mp hplace
    rw [Work.fill, if_pos ha, Work.of, byteAt_loadWord _ _ (by omega), slot_zero_add, hslot]
  · by_cases ha' : InArray sym a
    · rw [Work.fill, if_neg ha, if_pos ha']
      exact congrArg m (eq_cell ha').symm
    · rw [Work.fill, if_neg ha, if_neg ha']

/-! ## The code of a line -/

section Lines
variable {sym : Symbols} {m : Memory} {spv : BitVec 32} (hs : Site sym spv m)
  {r : Regs spv} {w : Work} {pc : BitVec 32} {c : Csrs}

/-- What the code of an instruction leaves is what the table says. -/
def Leaves (sym : Symbols) (m : Memory) {spv : BitVec 32} (r : Regs spv) (w : Work) (ef : Effect)
    (rd : Reg) (is : List Instr) : Prop :=
  ∃ v, ef.write = some (rd, v) ∧ Wp sym m is (fun r' _ => Result r r' rd v) r w

theorem setReg_some {rd : Reg} (hrd : rd ≠ 0#5) (v : BitVec 32) : setReg rd v = some (rd, v) :=
  if_neg hrd

/-- An immediate operand in `tp`. -/
theorem itype_leaves {f : Alu} {rd rs1 : Reg} {imm : BitVec 12} {is : List Instr}
    {rtype : Reg → Option (List Instr)} (hrd : Dest rd) (htp : rs1 ≠ tp)
    (hcode : itype imm rtype = some is)
    (h : ∀ js, rtype tp = some js → ∀ r : Regs spv,
      Wp sym m js (fun r' _ => Result r r' rd (f.eval (r.x rs1) (r.x tp))) r w) :
    Leaves sym m r w (exec r.x pc c ⟨false, m⟩ (.opImm f rd rs1 imm)) rd is := by
  obtain ⟨js, hjs, rfl⟩ := Option.map_eq_some_iff.mp hcode
  refine ⟨f.eval (r.x rs1) (imm.signExtend 32), setReg_some hrd.1 _, ?_⟩
  refine .addi (by decide) ((h js hjs _).mono fun r' _ hr => ⟨?_, ?_⟩)
  · rw [hr.value, Regs.set_of_ne _ _ _ htp, Regs.set_self, r.zero, BitVec.zero_add]
  · intro q hq hgp hqtp
    rw [hr.kept q hq hgp hqtp, Regs.set_of_ne _ _ _ hqtp]

/-- A logic macro whose operands it accepts. -/
theorem logic_wp {lut : BitVec 32} {g : BitVec 8 → BitVec 8 → BitVec 8} {f : Alu} {rd rs1 rs2 : Reg}
    {is : List Instr} (hs : Site sym spv m) (ht : ByteTable sym m lut g)
    (hf : ∀ a b : BitVec 32, ∀ k < 4, g (byteAt a k) (byteAt b k) = byteAt (f.eval a b) k)
    (hrd : Dest rd) (hcode : logic lut rd rs1 rs2 = some is) (r : Regs spv) (w : Work) :
    Wp sym m is (fun r' _ => Result r r' rd (f.eval (r.x rs1) (r.x rs2))) r w :=
  .logic hs ht (hf _ _) hrd.1 hcode

theorem and_bytes (a b : BitVec 32) (k : Nat) :
    byteAt a k &&& byteAt b k = byteAt (Alu.and.eval a b) k := BitVec.extractLsb'_and.symm

theorem or_bytes (a b : BitVec 32) (k : Nat) :
    byteAt a k ||| byteAt b k = byteAt (Alu.or.eval a b) k := BitVec.extractLsb'_or.symm

theorem xor_bytes (a b : BitVec 32) (k : Nat) :
    byteAt a k ^^^ byteAt b k = byteAt (Alu.xor.eval a b) k := BitVec.extractLsb'_xor.symm

include hs in
theorem op_leaves {f : Alu} {rd rs1 rs2 : Reg} {is : List Instr} (hrd : Dest rd)
    (hregs : rd ≠ tp ∧ rs1 ≠ tp) (hcode : macroOf sym (.op f rd rs1 rs2) = some (some is)) :
    Leaves sym m r w (exec r.x pc c ⟨false, m⟩ (.op f rd rs1 rs2)) rd is := by
  refine ⟨f.eval (r.x rs1) (r.x rs2), setReg_some hrd.1 _, ?_⟩
  cases f with
  | add => cases hcode
  | sub =>
    cases hcode
    exact .sub hs hrd hregs.2 fun t w' _ => .set_tp hrd t _
  | sll =>
    cases hcode
    exact .sll hs hrd
  | slt =>
    cases hcode
    exact .slt hs hrd
  | sltu =>
    cases hcode
    exact .sltu hs hrd
  | srl =>
    cases hcode
    exact .srl hs hrd hregs.1
  | sra =>
    cases hcode
    exact .sra hs hrd hregs.1
  | xor =>
    exact logic_wp hs (xorTable hs.tables) (fun a b k _ => xor_bytes a b k) hrd
      (Option.some_inj.mp hcode) r w
  | or =>
    exact logic_wp hs (orTable hs.tables) (fun a b k _ => or_bytes a b k) hrd
      (Option.some_inj.mp hcode) r w
  | and =>
    exact logic_wp hs (andTable hs.tables) (fun a b k _ => and_bytes a b k) hrd
      (Option.some_inj.mp hcode) r w

include hs in
theorem opImm_leaves {f : Alu} {rd rs1 : Reg} {imm : BitVec 12} {is : List Instr} (hrd : Dest rd)
    (htp : rs1 ≠ tp) (hcode : macroOf sym (.opImm f rd rs1 imm) = some (some is)) :
    Leaves sym m r w (exec r.x pc c ⟨false, m⟩ (.opImm f rd rs1 imm)) rd is := by
  cases f with
  | add | sub | sll | srl | sra => cases hcode
  | slt =>
    refine itype_leaves hrd htp (Option.some_inj.mp hcode) fun js hjs r => ?_
    cases hjs
    exact .slt hs hrd
  | sltu =>
    refine itype_leaves hrd htp (Option.some_inj.mp hcode) fun js hjs r => ?_
    cases hjs
    exact .sltu hs hrd
  | xor =>
    refine itype_leaves hrd htp (Option.some_inj.mp hcode) fun js hjs r => ?_
    exact logic_wp hs (xorTable hs.tables) (fun a b k _ => xor_bytes a b k) hrd hjs r w
  | or =>
    refine itype_leaves hrd htp (Option.some_inj.mp hcode) fun js hjs r => ?_
    exact logic_wp hs (orTable hs.tables) (fun a b k _ => or_bytes a b k) hrd hjs r w
  | and =>
    refine itype_leaves hrd htp (Option.some_inj.mp hcode) fun js hjs r => ?_
    exact logic_wp hs (andTable hs.tables) (fun a b k _ => and_bytes a b k) hrd hjs r w

include hs in
theorem shiftImm_leaves {f : Alu} {rd rs1 : Reg} {shamt : BitVec 5} {is : List Instr}
    (hrd : Dest rd) (htp : rd ≠ tp)
    (hcode : macroOf sym (.shiftImm f rd rs1 shamt) = some (some is)) :
    Leaves sym m r w (exec r.x pc c ⟨false, m⟩ (.shiftImm f rd rs1 shamt)) rd is := by
  have hlt : shamt.toNat < 32 := shamt.isLt
  have hamount : (shamt.setWidth 32).toNat % 32 = shamt.toNat := by
    rw [BitVec.toNat_setWidth_of_le (by decide), Nat.mod_eq_of_lt hlt]
  refine ⟨f.eval (r.x rs1) (shamt.setWidth 32), setReg_some hrd.1 _, ?_⟩
  cases f with
  | add | sub | slt | sltu | xor | or | and => cases hcode
  | sll =>
    cases hcode
    simp only [Alu.eval, hamount]
    exact .slli hs hrd
  | srl =>
    cases hcode
    simp only [Alu.eval, hamount]
    exact .srli hs hlt hrd htp
  | sra =>
    cases hcode
    simp only [Alu.eval, hamount]
    exact .srai hs hlt hrd htp

include hs in
theorem load_leaves {width : Width} {unsigned : Bool} {rd rs1 : Reg} {imm : BitVec 12}
    {is : List Instr} (hrd : Dest rd) (hregs : (rd ≠ gp ∧ rd ≠ tp) ∧ rs1 ≠ gp ∧ rs1 ≠ tp)
    (hcode : macroOf sym (.load width unsigned rd rs1 imm) = some (some is))
    (hal : aligned width (r.x rs1 + imm.signExtend 32) = true)
    (hout : ∀ k < width.bytes, Outside sym spv (r.x rs1 + imm.signExtend 32 + BitVec.ofNat 32 k)) :
    Leaves sym m r w (exec r.x pc c ⟨false, m⟩ (.load width unsigned rd rs1 imm)) rd is := by
  refine ⟨loadValue width unsigned m (r.x rs1 + imm.signExtend 32), ?_, ?_⟩
  · simp only [exec, memory, hal, if_true, Bool.false_eq_true, if_false]
    exact setReg_some hrd.1 _
  cases width with
  | word => cases hcode
  | byte =>
    have h0 := hout 0 (by decide)
    rw [BitVec.add_zero] at h0
    cases unsigned with
    | true => cases hcode
    | false =>
      cases hcode
      exact .lb hs hrd hregs.1.2 rfl h0
  | half =>
    have h0 := hout 0 (by decide)
    rw [BitVec.add_zero] at h0
    have hcode := Option.some_inj.mp hcode
    by_cases himm : imm = 2047#12
    · rw [if_pos himm] at hcode
      cases hcode
    · rw [if_neg himm] at hcode
      cases unsigned with
      | true =>
        cases hcode
        exact .lhu hs hrd hregs.1.2 hregs.2.2 himm rfl h0 (hout 1 (by decide))
      | false =>
        cases hcode
        exact .lh hs hrd hregs.1.1 hregs.2 himm rfl h0 (hout 1 (by decide))

/-- The accesses of an instruction without an exception. -/
theorem trap_aligned {x : Reg → BitVec 32} {width : Width} {unsigned : Bool} {rd rs1 : Reg}
    {imm : BitVec 12}
    (ht : (exec x pc c ⟨false, m⟩ (.load width unsigned rd rs1 imm)).trap = none) :
    aligned width (x rs1 + imm.signExtend 32) = true ∧
      (exec x pc c ⟨false, m⟩ (.load width unsigned rd rs1 imm)).access =
        some (.load width (x rs1 + imm.signExtend 32)) := by
  simp only [exec, memory] at ht ⊢
  split at ht
  · rename_i hal
    exact ⟨hal, by rw [if_pos hal]; rfl⟩
  · cases ht

include hs in
/-- A macro that leaves a value. -/
theorem macro_leaves {i : Instr} {is : List Instr} (hcode : macroOf sym i = some (some is))
    (hrd : Dest i.dest) (hregs : ∀ q ∈ i.regs, q ≠ gp ∧ q ≠ tp)
    (ht : (exec r.x pc c ⟨false, m⟩ i).trap = none)
    (hout : ∀ a ∈ loaded (exec r.x pc c ⟨false, m⟩ i).access, Outside sym spv a) :
    Leaves sym m r w (exec r.x pc c ⟨false, m⟩ i) i.dest is := by
  cases i with
  | op f rd rs1 rs2 =>
    exact op_leaves hs hrd
      ⟨(hregs rd (by simp [Instr.regs])).2, (hregs rs1 (by simp [Instr.regs])).2⟩ hcode
  | opImm f rd rs1 imm => exact opImm_leaves hs hrd (hregs rs1 (by simp [Instr.regs])).2 hcode
  | shiftImm f rd rs1 shamt =>
    exact shiftImm_leaves hs hrd (hregs rd (by simp [Instr.regs])).2 hcode
  | load width unsigned rd rs1 imm =>
    obtain ⟨hal, hacc⟩ := trap_aligned ht
    refine load_leaves hs hrd ⟨hregs rd (by simp [Instr.regs]), hregs rs1 (by simp [Instr.regs])⟩
      hcode hal ?_
    intro k hk
    refine hout _ ?_
    rw [hacc]
    exact ⟨k, hk, rfl⟩
  | store => exact absurd rfl hrd.1
  | _ => cases hcode

theorem sltu_one (v : BitVec 32) : Alu.sltu.eval v ((1#12).signExtend 32) = equalBit v 0#32 := by
  have hone : ((1#12).signExtend 32).toNat = 1 := by decide
  have hzero : v.toNat < 1 ↔ v = 0#32 := by
    rw [Nat.lt_one_iff]
    exact BitVec.toNat_inj (y := 0#32)
  rw [Alu.eval, hone]
  exact if_congr hzero rfl rfl

theorem slt_zero (v : BitVec 32) : Alu.slt.eval v 0#32 = signBit v := by
  rw [signBit_eq, bit, Alu.eval, BitVec.toInt_zero]
  simp only [decide_eq_true_eq]

include hs in
/-- A line that leaves a value. -/
theorem line_leaves {address : Nat → BitVec 32} {k : Nat} {st : Stmt} {i : Instr} {is : List Instr}
    (hcode : expand sym address k st = some is) (hi : st.meaning = some i)
    (huse : st.usesScratch sym = true) (hrd : Dest i.dest)
    (hregs : ∀ q ∈ i.regs, q ≠ gp ∧ q ≠ tp) (hseqz : ∀ rd rs, st = .seqz rd rs → rd ≠ s0)
    (ht : (exec r.x pc c ⟨false, m⟩ i).trap = none)
    (hout : ∀ a ∈ loaded (exec r.x pc c ⟨false, m⟩ i).access, Outside sym spv a) :
    Leaves sym m r w (exec r.x pc c ⟨false, m⟩ i) i.dest is := by
  cases st with
  | instr i' =>
    cases hi
    obtain ⟨o, ho⟩ := Option.isSome_iff_exists.mp huse
    have hcode' : o = some is := by
      cases i with
      | jal | branch => cases hcode
      | _ =>
        simp only [expand, ho, Option.getD_some] at hcode
        exact hcode
    exact macro_leaves hs (by rw [ho, hcode']) hrd hregs ht hout
  | not rd rs =>
    cases hi
    cases hcode
    have hones : (-1#12).signExtend 32 = BitVec.allOnes 32 := by decide
    refine ⟨~~~r.x rs, ?_, .not hs hrd fun t w' _ => .set_tp hrd t _⟩
    refine (setReg_some hrd.1 _).trans ?_
    rw [Alu.eval, hones, BitVec.xor_allOnes]
  | seqz rd rs =>
    cases hi
    cases hcode
    refine ⟨equalBit (r.x rs) 0#32, ?_, (Wp.seqz hs hrd).mono fun _ _ h => h.2 (hseqz rd rs rfl)⟩
    refine (setReg_some hrd.1 _).trans ?_
    rw [sltu_one]
  | sltz rd rs =>
    cases hi
    cases hcode
    refine ⟨signBit (r.x rs), ?_, .msb hs hrd fun _ => .set hrd _⟩
    refine (setReg_some hrd.1 _).trans ?_
    rw [r.zero, slt_zero]
  | la | branch | jal | tail => cases hi

end Lines

/-! ## Matching states -/

/-- The registers of the compiler and the memory that it can rely on agree. -/
structure Matches (sym : Symbols) (address : Nat → BitVec 32) (s : State) (t : Hart) : Prop where
  pc : t.pc = address s.line
  x : ∀ q, q ≠ gp → q ≠ tp → t.x q = s.x q
  zero : s.x 0#5 = 0#32
  csrs : t.csrs = s.csrs
  mem : ∀ a, a ∉ s.lost → t.mem a = s.mem a
  tables : Tables sym s.mem
  table : ∀ a, sym.IsTable a → a ∉ s.lost

theorem Tables.congr {sym : Symbols} {m m' : Memory} (h : Tables sym m)
    (hm : ∀ a, sym.IsTable a → m' a = m a) : Tables sym m' where
  sameResult i hi := by
    rw [hm _ (Or.inl (by bv_omega)), h.sameResult i hi]
  check8bit0 i hi := by
    rw [hm _ (Or.inr (Or.inl (by bv_omega))), h.check8bit0 i hi]
  slt1 i hi := by
    rw [hm _ (Or.inr (Or.inr (Or.inl (by bv_omega)))), h.slt1 i hi]
  sltu1 i hi := by
    rw [hm _ (Or.inr (Or.inr (Or.inr (Or.inl (by bv_omega))))), h.sltu1 i hi]
  or1 i hi := by
    rw [hm _ (Or.inr (Or.inr (Or.inr (Or.inr (Or.inl (by bv_omega)))))), h.or1 i hi]
  lut i hi := by
    rw [hm _ (isTable_lut hi), h.lut i hi]
  aligned := h.aligned

section Matches
variable {sym : Symbols} {address : Nat → BitVec 32} {s : State} {t : Hart} {i : Instr}

theorem Room.site {m : Memory} {spv : BitVec 32} (h : Room sym spv) (ht : Tables sym m) :
    Site sym spv m := ⟨ht, h.aligned, h.array, h.table⟩

theorem Matches.tables' (h : Matches sym address s t) : Tables sym t.mem :=
  h.tables.congr fun a ha => h.mem a (h.table a ha)

def Matches.regs (h : Matches sym address s t) : Regs (s.x sp) where
  x := t.x
  zero := (h.x 0#5 (by decide) (by decide)).trans h.zero
  sp := h.x 2#5 (by decide) (by decide)

/-- Both take the same effect of an instruction. -/
theorem Matches.effect (h : Matches sym address s t) (hregs : ∀ q ∈ i.regs, q ≠ gp ∧ q ≠ tp)
    (hloads : ∀ a ∈ loaded ((s.hart address).effect i).access, a ∉ s.lost) :
    t.effect i = (s.hart address).effect i := by
  have hx : ∀ q ∈ i.regs, t.x q = s.x q := fun q hq => h.x q (hregs q hq).1 (hregs q hq).2
  rw [Hart.effect, exec_congr hx, h.pc, h.csrs]
  refine exec_answer i rfl ?_
  rintro width unsigned rd rs1 imm rfl hal
  refine loadValue_congr fun k hk => h.mem _ (hloads _ ?_)
  simp only [State.hart, Hart.effect, exec, memory, hal, if_true, Bool.false_eq_true, if_false]
  exact ⟨k, hk, rfl⟩

/-- The memory after an instruction. -/
def memAfter (m : Memory) : Option Access → Memory
  | some (.store _ _ bytes) => writeBytes m bytes
  | _ => m

theorem step_mem (h : Hart) (i : Instr) : (h.step i).mem = memAfter h.mem (h.effect i).access := rfl

/-- The registers after an instruction. -/
def regsAfter (x : Reg → BitVec 32) : Option (Reg × BitVec 32) → Reg → BitVec 32
  | some (rd, v) => Function.update x rd v
  | none => x

theorem step_x (h : Hart) (i : Instr) : (h.step i).x = regsAfter h.x (h.effect i).write := rfl

theorem regsAfter_congr {x y : Reg → BitVec 32} {w : Option (Reg × BitVec 32)} {q : Reg}
    (h : x q = y q) : regsAfter x w q = regsAfter y w q := by
  match w with
  | some (rd, v) => rw [regsAfter, regsAfter, Function.update_apply, Function.update_apply, h]
  | none => exact h

theorem regsAfter_zero {x : Reg → BitVec 32} {w : Option (Reg × BitVec 32)}
    (h : ∀ rd v, w = some (rd, v) → rd ≠ 0#5) : regsAfter x w 0#5 = x 0#5 := by
  match w with
  | some (rd, v) => exact Function.update_of_ne (Ne.symm (h rd v rfl)) ..
  | none => rfl

theorem memAfter_congr {m m' : Memory} {acc : Option Access} {a : BitVec 32}
    (h : a ∈ stored acc ∨ m a = m' a) : memAfter m acc a = memAfter m' acc a := by
  match acc with
  | some (.store _ _ bytes) => exact writeBytes_congr h
  | some (.load _ _) | none => exact h.resolve_left fun hf => hf

theorem memAfter_outside {m : Memory} {acc : Option Access} {a : BitVec 32} (h : a ∉ stored acc) :
    memAfter m acc a = m a := by
  match acc with
  | some (.store _ _ bytes) => exact writeBytes_outside fun b hb ha => h ⟨b, hb, ha⟩
  | some (.load _ _) | none => rfl

end Matches

/-! ## One line -/

/-- A program that the assembler accepts, linked at `base`. -/
structure Linked where
  sym : Symbols
  base : BitVec 32
  program : List Stmt
  aligned : base.toNat % 4 = 0
  assembles : ∀ k st, program[k]? = some st →
    (expand sym (lineAddress sym base program) k st).isSome = true

namespace Linked
variable (g : Linked)

def address (k : Nat) : BitVec 32 := lineAddress g.sym g.base g.program k

def image : Asm.Image := ⟨g.base, Minirv.code g.sym g.base g.program, g.aligned⟩

/-- Line `k` is the statement `st` with the code `is`. -/
structure Line (k : Nat) (st : Stmt) (is : List Instr) : Prop where
  line : g.program[k]? = some st
  code : expand g.sym g.address k st = some is

variable {g} {k : Nat} {st : Stmt} {is : List Instr}

theorem exists_line (hk : g.program[k]? = some st) : ∃ is, g.Line k st is := by
  obtain ⟨is, his⟩ := Option.isSome_iff_exists.mp (g.assembles k st hk)
  exact ⟨is, hk, his⟩

theorem Line.at (h : g.Line k st is) : g.image.At (offset g.sym g.program k) is := by
  intro j i hj
  refine codeFrom_at _ h.line 0 ?_
  rw [Nat.zero_add]
  have hcode : expand g.sym (lineAddress g.sym g.base g.program) k st = some is := h.code
  rw [hcode]
  exact hj

theorem Line.next (h : g.Line k st is) :
    g.image.address (offset g.sym g.program k + is.length) = g.address (k + 1) := by
  have hlen : ((expand g.sym g.address k st).getD []).length = st.size g.sym :=
    length_expand g.address k st
  rw [h.code, Option.getD_some] at hlen
  rw [hlen, address, lineAddress, offset_succ_line h.line]
  rfl

theorem address_aligned (k : Nat) : (g.address k).toNat % 4 = 0 :=
  g.image.address_aligned (offset g.sym g.program k)

end Linked

section Simulation
variable {g : Linked} {s : State} {t : Hart} {st : Stmt} {is : List Instr}

/-- Code in scratch memory, run from a matching state. -/
theorem Matches.follow (h : Matches g.sym g.address s t) {j : Nat} (hat : g.image.At j is)
    (hpc : t.pc = g.image.address j) {Q : Regs (s.x sp) → Prop}
    (hw : ∀ w, Wp g.sym t.mem is (fun r' _ => Q r') h.regs w) :
    ∃ r' m',
      g.image.Leads t { t with x := r'.x, mem := m', pc := g.image.address (j + is.length) } ∧
      (∀ a, a ∉ touched g.sym (s.x sp) → m' a = t.mem a) ∧ Q r' := by
  obtain ⟨r', w', hdoes, hq⟩ := hw (.of g.sym (s.x sp) t.mem)
  refine ⟨r', w'.fill g.sym (s.x sp) t.mem, hdoes g.image j t hat hpc rfl ?_, ?_, hq⟩
  · exact (fill_of g.sym (s.x sp) t.mem).symm
  · intro a ha
    exact fill_outside ⟨fun hin => ha (Or.inl hin), fun hin => ha (Or.inr hin)⟩

/-- Instructions that only compute or access memory. -/
def computes : Instr → Bool
  | .op .. | .opImm .. | .shiftImm .. | .load .. | .store .. => true
  | _ => false

theorem computes_csrs {x : Reg → BitVec 32} {pc : BitVec 32} {c : Csrs} {ans : Answer} {i : Instr}
    (hi : computes i = true) (ht : (exec x pc c ans i).trap = none) :
    (exec x pc c ans i).csrs = c := by
  cases i with
  | op | opImm | shiftImm => rfl
  | load | store =>
    simp only [exec, memory] at ht ⊢
    split at ht
    · rename_i hal
      rw [if_pos hal]
      split at ht
      · cases ht
      · rename_i hf
        rw [if_neg hf]
        rfl
    · cases ht
  | _ => cases hi

theorem scratch_computes {sym : Symbols} {i : Instr} (hi : st.meaning = some i)
    (huse : st.usesScratch sym = true) : computes i = true := by
  cases st with
  | instr i' =>
    cases hi
    cases i with
    | op | opImm | shiftImm | load | store => rfl
    | _ => cases huse
  | not | seqz | sltz =>
    cases hi
    rfl
  | la | branch | jal | tail => cases hi

/-- An instruction that leaves a value stores nothing. -/
theorem dest_access {x : Reg → BitVec 32} {pc : BitVec 32} {c : Csrs} {ans : Answer} {i : Instr}
    (hd : i.dest ≠ 0#5) (w : Width) (a : BitVec 32) (bytes : List (BitVec 32 × BitVec 8)) :
    (exec x pc c ans i).access ≠ some (.store w a bytes) := by
  cases i with
  | load width unsigned rd rs1 imm =>
    simp only [exec, memory]
    split
    · split <;> rintro ⟨⟩
    · rintro ⟨⟩
  | jal | jalr =>
    simp only [exec, goto]
    split <;> rintro ⟨⟩
  | lui | auipc | opImm | shiftImm | op | csr | csrImm => rintro ⟨⟩
  | _ => exact absurd rfl hd

theorem stored_eq_empty {acc : Option Access} (h : ∀ w a bytes, acc ≠ some (.store w a bytes)) :
    stored acc = ∅ := by
  match acc with
  | some (.store w a bytes) => exact absurd rfl (h w a bytes)
  | some (.load _ _) | none => rfl

/-- The memory of a matching state after a line. -/
theorem Matches.mem_after (h : Matches g.sym g.address s t) {acc : Option Access} {a : BitVec 32}
    (ha : a ∉ s.lost \ stored acc) : memAfter t.mem acc a = memAfter s.mem acc a := by
  refine memAfter_congr ?_
  by_cases hs : a ∈ stored acc
  · exact Or.inl hs
  · exact Or.inr (h.mem a fun hl => ha ⟨hl, hs⟩)

/-- The tables stay as they are. -/
theorem tables_after {sym : Symbols} {acc : Option Access} {m : Memory} (ht : Tables sym m)
    (hstores : ∀ a ∈ stored acc, ¬sym.IsTable a) : Tables sym (memAfter m acc) :=
  ht.congr fun a ha => memAfter_outside fun hs => hstores a hs ha

/-- The state behind a macro that makes the access `acc`. -/
theorem Matches.scratch (h : Matches g.sym g.address s t) (room : Room g.sym (s.x sp)) {n : Nat}
    {x y : Reg → BitVec 32} {m : Memory} {pc : BitVec 32} {acc : Option Access}
    (hpc : pc = g.address n) (hx : ∀ q, q ≠ gp → q ≠ tp → y q = x q) (hz : x 0#5 = 0#32)
    (hstores : ∀ a ∈ stored acc, ¬g.sym.IsTable a)
    (hm : ∀ a, a ∉ touched g.sym (s.x sp) → m a = memAfter t.mem acc a) :
    Matches g.sym g.address
      ⟨n, x, s.csrs, memAfter s.mem acc, (s.lost \ stored acc) ∪ touched g.sym (s.x sp)⟩
      ⟨y, pc, t.csrs, m⟩ where
  pc := hpc
  x := hx
  zero := hz
  csrs := h.csrs
  mem a ha := (hm a fun hin => ha (Or.inr hin)).trans (h.mem_after fun hin => ha (Or.inl hin))
  tables := tables_after h.tables hstores
  table a ha := by
    rintro (hin | hin | hin)
    · exact h.table a ha hin.1
    · exact (room.table a ha).1 hin
    · exact (room.table a ha).2 hin

/-- A macro that leaves a value in a register. -/
theorem Matches.step_value {i : Instr} (h : Matches g.sym g.address s t) (hl : g.Line s.line st is)
    (hi : st.meaning = some i) (fits : s.Fits g.sym g.address st i)
    (ok : ((s.hart g.address).effect i).trap = none) (huse : st.usesScratch g.sym = true)
    (hrd : Dest i.dest) : ∃ t', g.image.Leads t t' ∧
      Matches g.sym g.address (s.after g.sym g.address st i (s.line + 1)) t' := by
  have heff : t.effect i = (s.hart g.address).effect i := h.effect fits.regs fits.loads
  have room := fits.room huse
  have hleaves : ∀ w, Leaves g.sym t.mem h.regs w (t.effect i) i.dest is := by
    intro w
    refine line_leaves (room.site h.tables') hl.code hi huse hrd fits.regs fits.seqz ?_ ?_
    · exact (congrArg Effect.trap heff).trans ok
    · intro a ha
      have ha' : a ∈ loaded ((s.hart g.address).effect i).access := heff ▸ ha
      have hout := fits.apart huse a (Or.inl ha')
      exact ⟨fun hin => hout (Or.inl hin), fun hin => hout (Or.inr hin)⟩
  obtain ⟨v, hv, -⟩ := hleaves (.of g.sym (s.x sp) t.mem)
  have hw : ∀ w, Wp g.sym t.mem is (fun r' _ => Result h.regs r' i.dest v) h.regs w := by
    intro w
    obtain ⟨v', hv', hwp⟩ := hleaves w
    rw [hv, Option.some_inj] at hv'
    cases hv'
    exact hwp
  obtain ⟨r', m', hlead, hm', hr⟩ := h.follow hl.at h.pc hw
  rw [heff] at hv
  have hstored : stored ((s.hart g.address).effect i).access = ∅ :=
    stored_eq_empty (dest_access hrd.1)
  have hx : ((s.hart g.address).step i).x = Function.update s.x i.dest v := by
    simp only [Hart.step, hv]
    rfl
  have hcsrs : ((s.hart g.address).step i).csrs = s.csrs :=
    computes_csrs (scratch_computes hi huse) ok
  refine ⟨_, hlead, ?_⟩
  rw [State.after, hx, hcsrs, step_mem, if_pos huse]
  refine h.scratch room hl.next ?_ ?_ fits.stores ?_
  · intro q hgp htp
    by_cases hq : q = i.dest
    · subst hq
      rw [Function.update_self, hr.value]
    · rw [Function.update_of_ne hq, ← h.x q hgp htp, hr.kept q hq hgp htp]
      rfl
  · rw [Function.update_of_ne (Ne.symm hrd.1), h.zero]
  · intro a ha
    rw [hm' a ha, memAfter_outside (by rw [hstored]; exact fun hin => hin)]

/-- The bytes of a halfword, stored one by one around a scratch word. -/
theorem does_sh {sym : Symbols} {m : Memory} {spv a : BitVec 32} (hs : Site sym spv m)
    (r : Regs spv) {rs1 : Reg} (rs2 : Reg) {imm : BitVec 12} (hrs1 : rs1 ≠ gp ∧ rs1 ≠ tp)
    (himm : imm ≠ 2047#12) (haddr : r.x rs1 + imm.signExtend 32 = a) (htable : ¬sym.IsTable a) :
    ∃ y m', Does (sh rs2 rs1 imm) ⟨r.x, m⟩ ⟨y, m'⟩ ∧ (∀ q, q ≠ gp → q ≠ tp → y q = r.x q) ∧
      ∀ b, b ∉ touched sym spv → m' b = Function.update
        (Function.update m a (byteAt (r.x rs2) 0)) (a + 1#32) (byteAt (r.x rs2) 1) b := by
  have hs' : Site sym spv (Function.update m a (byteAt (r.x rs2) 0)) := by
    refine ⟨hs.tables.congr fun b hb => ?_, hs.aligned, hs.array, hs.table⟩
    have hne : b ≠ a := fun he => htable (he ▸ hb)
    exact Function.update_of_ne hne ..
  have hfirst := does_sb ⟨r.x, m⟩ rs1 rs2 imm haddr
  have hbyte : Wp sym (Function.update m a (byteAt (r.x rs2) 0)) (getbyte tp rs2 1)
      (fun r' _ => Result r r' tp ((byteAt (r.x rs2) 1).setWidth 32)) r
      (.of sym spv (Function.update m a (byteAt (r.x rs2) 0))) :=
    .getbyte hs' (by decide) (by decide) (.set (by decide) _)
  obtain ⟨r', w', hdoes, hr⟩ := hbyte
  rw [conf, fill_of] at hdoes
  have hkept : ∀ q, q ≠ gp → q ≠ tp → r'.x q = r.x q := fun q hgp htp => hr.kept q htp hgp htp
  have haddr' : r'.x rs1 + (imm + 1#12).signExtend 32 = a + 1#32 := by
    rw [hkept rs1 hrs1.1 hrs1.2, offset_succ himm, ← BitVec.add_assoc, haddr]
  have hlast := does_sb (conf sym (Function.update m a (byteAt (r.x rs2) 0)) r' w') rs1 tp
    (imm + 1#12) haddr'
  refine ⟨_, _, (hfirst.append hdoes).append hlast, hkept, ?_⟩
  intro b hb
  have hout : Outside sym spv b := ⟨fun hin => hb (Or.inl hin), fun hin => hb (Or.inr hin)⟩
  have hlow : (r'.x tp).extractLsb' 0 8 = byteAt (r.x rs2) 1 := by
    rw [hr.value, low_setWidth]
  have hmem : (conf sym (Function.update m a (byteAt (r.x rs2) 0)) r' w').mem b =
      Function.update m a (byteAt (r.x rs2) 0) b := fill_outside hout
  have hx : (conf sym (Function.update m a (byteAt (r.x rs2) 0)) r' w').x tp = r'.x tp := rfl
  rw [hx, hlow, Function.update_apply, Function.update_apply, hmem]

/-- The macro for `sh`. -/
theorem Matches.step_half {rs1 rs2 : Reg} {imm : BitVec 12} (h : Matches g.sym g.address s t)
    (hl : g.Line s.line (.instr (.store .half rs1 rs2 imm)) is)
    (fits : s.Fits g.sym g.address (.instr (.store .half rs1 rs2 imm)) (.store .half rs1 rs2 imm))
    (ok : ((s.hart g.address).effect (.store .half rs1 rs2 imm)).trap = none) :
    ∃ t', g.image.Leads t t' ∧ Matches g.sym g.address (s.after g.sym g.address
      (.instr (.store .half rs1 rs2 imm)) (.store .half rs1 rs2 imm) (s.line + 1)) t' := by
  have huse : (Stmt.instr (.store .half rs1 rs2 imm)).usesScratch g.sym = true := rfl
  have room := fits.room huse
  have hreg1 := fits.regs rs1 (by simp [Instr.regs])
  have hreg2 := fits.regs rs2 (by simp [Instr.regs])
  have himm : imm ≠ 2047#12 := by
    rintro rfl
    cases hl.code
  have hcode : is = sh rs2 rs1 imm := by
    have he := hl.code
    simp only [expand, macroOf, if_neg himm, Option.getD_some, Option.some_inj] at he
    exact he.symm
  subst hcode
  obtain ⟨a, ha⟩ : ∃ a, a = s.x rs1 + imm.signExtend 32 := ⟨_, rfl⟩
  have hx1 : h.regs.x rs1 = s.x rs1 := h.x rs1 hreg1.1 hreg1.2
  have hx2 : h.regs.x rs2 = s.x rs2 := h.x rs2 hreg2.1 hreg2.2
  have heff : (s.hart g.address).effect (.store .half rs1 rs2 imm) =
      { Effect.complete s.csrs (g.address s.line + 4#32) none with
        access := some (.store .half a (storeBytes .half a (s.x rs2))) } := by
    simp only [Hart.effect, exec, memory] at ok ⊢
    split at ok
    · rename_i hal
      rw [if_pos hal, ha]
      rfl
    · cases ok
  have hbytes : storeBytes .half a (s.x rs2) =
      [(a + 0#32, byteAt (s.x rs2) 0), (a + 1#32, byteAt (s.x rs2) 1)] := rfl
  have htable : ¬g.sym.IsTable a := by
    refine fits.stores a ?_
    rw [heff, hbytes]
    exact ⟨_, List.mem_cons_self, BitVec.add_zero a⟩
  obtain ⟨y, m', hdoes, hy, hm'⟩ := does_sh (room.site h.tables') h.regs rs2 hreg1 himm
    ((congrArg (· + _) hx1).trans ha.symm) htable
  have hlead := hdoes g.image _ t hl.at h.pc rfl rfl
  have hmem : ∀ b, memAfter t.mem (some (.store .half a (storeBytes .half a (s.x rs2)))) b =
      Function.update (Function.update t.mem a (byteAt (s.x rs2) 0)) (a + 1#32)
        (byteAt (s.x rs2) 1) b := by
    intro b
    rw [hbytes, memAfter, BitVec.add_zero]
    rfl
  refine ⟨_, hlead, ?_⟩
  have hx : ((s.hart g.address).step (.store .half rs1 rs2 imm)).x = s.x := by
    simp only [Hart.step, heff]
    rfl
  have hcsrs : ((s.hart g.address).step (.store .half rs1 rs2 imm)).csrs = s.csrs :=
    computes_csrs rfl ok
  rw [State.after, hx, hcsrs, step_mem, if_pos huse]
  refine h.scratch room hl.next ?_ h.zero fits.stores ?_
  · exact fun q hgp htp => (hy q hgp htp).trans (h.x q hgp htp)
  · intro b hb
    refine (hm' b hb).trans ?_
    rw [hx2, heff]
    exact (hmem b).symm

/-- The macro for `sub` when it moves the stack pointer, which it writes last. -/
theorem Matches.step_sub_sp {rs1 rs2 : Reg} (h : Matches g.sym g.address s t)
    (hl : g.Line s.line (.instr (.op .sub sp rs1 rs2)) is)
    (fits : s.Fits g.sym g.address (.instr (.op .sub sp rs1 rs2)) (.op .sub sp rs1 rs2)) :
    ∃ t', g.image.Leads t t' ∧ Matches g.sym g.address (s.after g.sym g.address
      (.instr (.op .sub sp rs1 rs2)) (.op .sub sp rs1 rs2) (s.line + 1)) t' := by
  have huse : (Stmt.instr (.op .sub sp rs1 rs2)).usesScratch g.sym = true := rfl
  have room := fits.room huse
  have hreg1 := fits.regs rs1 (by simp [Instr.regs])
  have hreg2 := fits.regs rs2 (by simp [Instr.regs])
  have hat := hl.at
  have hnext := hl.next
  cases hl.code
  have hnot : ∀ w, Wp g.sym t.mem (Minirv.not g.sym tp rs2)
      (fun r' _ => Result h.regs r' tp (~~~h.regs.x rs2)) h.regs w :=
    fun w => .not (room.site h.tables') (by decide) fun t w' _ => .set_tp (by decide) t _
  obtain ⟨r', m', hlead, hm', hr⟩ := h.follow hat.left h.pc hnot
  have hkept : ∀ q, q ≠ gp → q ≠ tp → r'.x q = s.x q :=
    fun q hgp htp => (hr.kept q htp hgp htp).trans (h.x q hgp htp)
  have hvalue : r'.x rs1 + r'.x tp + (1#12).signExtend 32 = s.x rs1 - s.x rs2 := by
    have hx2 : h.regs.x rs2 = s.x rs2 := h.x rs2 hreg2.1 hreg2.2
    rw [hkept rs1 hreg1.1 hreg1.2, hr.value, hx2, add_not_succ]
  have hlast : Does [add sp rs1 tp, addi sp sp 1#12] ⟨r'.x, m'⟩
      ⟨Function.update r'.x sp (s.x rs1 - s.x rs2), m'⟩ := by
    have hsp : sp ≠ 0#5 := by decide
    have hboth := (does_add ⟨r'.x, m'⟩ hsp rs1 tp).append (does_addi _ hsp sp 1#12)
    simp only [Function.update_self, Function.update_idem, hvalue] at hboth
    exact hboth
  refine ⟨_, hlead.trans (hlast g.image _ _ hat.right rfl rfl rfl), ?_⟩
  have hx : ((s.hart g.address).step (.op .sub sp rs1 rs2)).x =
      Function.update s.x sp (s.x rs1 - s.x rs2) := rfl
  have hcsrs : ((s.hart g.address).step (.op .sub sp rs1 rs2)).csrs = s.csrs := rfl
  rw [State.after, hx, hcsrs, step_mem, if_pos huse]
  refine h.scratch room ?_ ?_ ?_ fits.stores hm'
  · rw [← hnext, Nat.add_assoc, ← List.length_append]
    rfl
  · intro q hgp htp
    show Function.update r'.x sp (s.x rs1 - s.x rs2) q = _
    rw [Function.update_apply, Function.update_apply, hkept q hgp htp]
  · exact (Function.update_of_ne (by decide) ..).trans h.zero

/-! Lines without a macro. -/

theorem exec_write_ne {x : Reg → BitVec 32} {pc : BitVec 32} {c : Csrs} {ans : Answer} {i : Instr}
    {rd : Reg} {v : BitVec 32} (h : (exec x pc c ans i).write = some (rd, v)) : rd ≠ 0#5 := by
  by_cases hi : i = .ebreak
  · subst hi
    cases h
  · exact ((exec_outcome hi).write_dest h).2

theorem exec_nextPc {x : Reg → BitVec 32} {pc : BitVec 32} {c : Csrs} {ans : Answer} {i : Instr}
    (hi : jumps i = false) (ht : (exec x pc c ans i).trap = none) :
    (exec x pc c ans i).nextPc = pc + 4#32 := by
  cases i with
  | lui | auipc | opImm | shiftImm | op | csr | csrImm | fence | fenceI | wfi => rfl
  | load | store =>
    simp only [exec, memory] at ht ⊢
    split at ht
    · rename_i hal
      rw [if_pos hal]
      split at ht
      · cases ht
      · rename_i hf
        rw [if_neg hf]
        rfl
    · cases ht
  | ecall | ebreak => cases ht
  | _ => cases hi

/-- An instruction that stays as it is. -/
theorem Matches.step_native {i : Instr} {n : Nat} (h : Matches g.sym g.address s t)
    (hl : g.Line s.line (.instr i) [i]) (fits : s.Fits g.sym g.address (.instr i) i)
    (ok : ((s.hart g.address).effect i).trap = none)
    (next : if jumps i then g.address n = ((s.hart g.address).effect i).nextPc else n = s.line + 1)
    (huse : (Stmt.instr i).usesScratch g.sym = false) : ∃ t', g.image.Leads t t' ∧
      Matches g.sym g.address (s.after g.sym g.address (.instr i) i n) t' := by
  have heff : t.effect i = (s.hart g.address).effect i := h.effect fits.regs fits.loads
  refine ⟨t.step i, .single ⟨_, i, h.pc, hl.at 0 i rfl, heff ▸ ok, rfl⟩, ?_⟩
  rw [State.after, huse, if_neg Bool.false_ne_true, Set.union_empty]
  have hpc : (t.step i).pc = g.address n := by
    refine (congrArg Effect.nextPc heff).trans ?_
    split at next
    · exact next.symm
    · rename_i hj
      have hfour : ((s.hart g.address).effect i).nextPc = g.address s.line + 4#32 :=
        exec_nextPc (Bool.eq_false_of_not_eq_true hj) ok
      rw [next, hfour, ← hl.next]
      exact g.image.address_succ _
  have hx : ∀ q, q ≠ gp → q ≠ tp → (t.step i).x q = ((s.hart g.address).step i).x q := by
    intro q hgp htp
    rw [step_x, step_x, heff]
    exact regsAfter_congr (h.x q hgp htp)
  have hzero : ((s.hart g.address).step i).x 0#5 = 0#32 := by
    rw [step_x]
    exact (regsAfter_zero fun rd v hw => exec_write_ne hw).trans h.zero
  have hmem : ∀ a, a ∉ s.lost \ stored ((s.hart g.address).effect i).access →
      (t.step i).mem a = ((s.hart g.address).step i).mem a := by
    intro a ha
    rw [step_mem, step_mem, heff]
    exact h.mem_after ha
  exact ⟨hpc, hx, hzero, congrArg Effect.csrs heff, hmem, tables_after h.tables fits.stores,
    fun a ha hin => h.table a ha hin.1⟩

/-! Lines with labels. -/

/-- The state behind code that leaves memory alone. -/
theorem Matches.move (h : Matches g.sym g.address s t) {n : Nat} {x y : Reg → BitVec 32}
    {pc : BitVec 32} (hpc : pc = g.address n) (hx : ∀ q, q ≠ gp → q ≠ tp → y q = x q)
    (hz : x 0#5 = 0#32) : Matches g.sym g.address { s with line := n, x := x }
      { t with x := y, pc := pc } :=
  ⟨hpc, hx, hz, h.csrs, h.mem, h.tables, h.table⟩

theorem Matches.update (h : Matches g.sym g.address s t) (rd : Reg) (v : BitVec 32) (q : Reg)
    (hgp : q ≠ gp) (htp : q ≠ tp) : Function.update t.x rd v q = Function.update s.x rd v q := by
  rw [Function.update_apply, Function.update_apply, h.x q hgp htp]

theorem Matches.step_la {rd : Reg} {r : Ref} (h : Matches g.sym g.address s t)
    (hl : g.Line s.line (.la rd r) is) (hrd : rd ≠ x0) :
    ∃ t', g.image.Leads t t' ∧ Matches g.sym g.address { s with
      line := s.line + 1, x := Function.update s.x rd (r.address g.address) } t' := by
  cases hl.code
  have hlead := does_la ⟨t.x, t.mem⟩ hrd (r.address g.address) g.image _ t hl.at h.pc rfl rfl
  have hne : 0#5 ≠ rd := Ne.symm hrd
  refine ⟨_, hlead, h.move hl.next (h.update rd _) ?_⟩
  rw [Function.update_of_ne hne, h.zero]

/-- The code loads an address into a register and jumps there. -/
theorem Linked.jump {rd r : Reg} {k l : Nat} (hr : r ≠ 0#5)
    (hpc : t.pc = g.image.address k)
    (hat : g.image.At k (la r (g.address l) ++ [.jalr rd r 0#12])) :
    g.image.Leads t { t with
      x := if rd = 0#5 then Function.update t.x r (g.address l)
        else Function.update (Function.update t.x r (g.address l)) rd (g.image.address (k + 3)),
      pc := g.address l } := by
  have hlead := does_la ⟨t.x, t.mem⟩ hr (g.address l) g.image k t hat.left hpc rfl rfl
  have hjalr := hat.right 0 (.jalr rd r 0#12) rfl
  refine hlead.trans (.single ?_)
  have hnext := Asm.Image.next_jalr (h := { t with
    x := Function.update t.x r (g.address l), pc := g.image.address (k + 2) }) rfl hjalr ?_
  · simp only [Function.update_self] at hnext
    exact hnext
  · simp only [Function.update_self]
    exact g.address_aligned l

theorem Matches.goes {l : Nat} (h : Matches g.sym g.address s t)
    (hat : g.image.At (offset g.sym g.program s.line) (j (g.address l))) :
    ∃ t', g.image.Leads t t' ∧ Matches g.sym g.address { s with line := l } t' := by
  refine ⟨_, Linked.jump (by decide) h.pc hat, ?_⟩
  rw [if_pos (show x0 = 0#5 from rfl)]
  refine h.move rfl ?_ h.zero
  intro q hgp htp
  rw [Function.update_of_ne htp, h.x q hgp htp]

theorem Matches.step_jal {rd : Reg} {l : Nat} (h : Matches g.sym g.address s t)
    (hl : g.Line s.line (.jal rd l) is) :
    ∃ t', g.image.Leads t t' ∧ Matches g.sym g.address { s with
      line := l,
      x := if rd = x0 then s.x else Function.update s.x rd (g.address (s.line + 1)) } t' := by
  have hat := hl.at
  have hnext := hl.next
  cases hl.code
  by_cases h0 : rd = x0
  · rw [jal, if_pos h0] at hat
    rw [if_pos h0]
    exact h.goes hat
  · have hne : 0#5 ≠ rd := Ne.symm h0
    rw [jal, if_neg h0] at hat hnext
    have hlen : (callTemplate rd (g.address l)).length = 3 := rfl
    rw [hlen] at hnext
    refine ⟨_, Linked.jump h0 h.pc hat, ?_⟩
    rw [if_neg h0, if_neg (Ne.symm hne), hnext, Function.update_idem]
    refine h.move rfl (h.update rd _) ?_
    rw [Function.update_of_ne hne, h.zero]

theorem Matches.step_tail {l : Nat} (h : Matches g.sym g.address s t)
    (hl : g.Line s.line (.tail l) is) :
    ∃ t', g.image.Leads t t' ∧ Matches g.sym g.address { s with line := l } t' := by
  have hat := hl.at
  cases hl.code
  exact h.goes hat.left

theorem Matches.step_branch {cond : Cond} {rs1 rs2 : Reg} {l : Nat}
    (h : Matches g.sym g.address s t) (hl : g.Line s.line (.branch cond rs1 rs2 l) is)
    (hregs : (rs1 ≠ gp ∧ rs1 ≠ tp) ∧ rs2 ≠ gp ∧ rs2 ≠ tp) (room : Room g.sym (s.x sp)) :
    ∃ t', g.image.Leads t t' ∧ Matches g.sym g.address { s with
      line := if cond.holds (s.x rs1) (s.x rs2) then l else s.line + 1,
      lost := s.lost ∪ touched g.sym (s.x sp) } t' := by
  have hat := hl.at
  cases hl.code
  have hs := room.site h.tables'
  rw [branch, branchResolve_eq, ← List.append_assoc] at hat
  have hx1 : h.regs.x rs1 = s.x rs1 := h.x rs1 hregs.1.1 hregs.1.2
  have hx2 : h.regs.x rs2 = s.x rs2 := h.x rs2 hregs.2.1 hregs.2.2
  have hw : ∀ w, Wp g.sym t.mem ((condition g.sym cond rs1 rs2).1 ++ select (g.address l)
      (g.address (s.line + 1)) (condition g.sym cond rs1 rs2).2) (fun r' _ => Result h.regs r' tp
        (if cond.holds (s.x rs1) (s.x rs2) then g.address l else g.address (s.line + 1)))
        h.regs w := by
    intro w
    refine .append ((Wp.condition hs cond hregs.2.1).mono fun r₁ w₁ h₁ => ?_)
    refine (Wp.select hs h₁.value).mono fun r₂ w₂ h₂ => ⟨?_, ?_⟩
    · rw [h₂.value, hx1, hx2]
    · intro q hq hgp htp
      rw [h₂.kept q hq hgp htp, h₁.kept q hq hgp htp]
  obtain ⟨r', m', hlead, hm', hr⟩ := h.follow hat.left h.pc hw
  have hjalr := hat.right 0 (.jalr x0 tp 0#12) rfl
  have htarget : r'.x tp =
      g.address (if cond.holds (s.x rs1) (s.x rs2) then l else s.line + 1) := by
    rw [hr.value]
    split <;> rfl
  have haligned : (r'.x tp).toNat % 4 = 0 := by
    rw [htarget]
    exact g.address_aligned _
  refine ⟨_, hlead.trans (.single (Asm.Image.next_jalr rfl hjalr haligned)), ?_⟩
  rw [if_pos (show x0 = 0#5 from rfl)]
  have hx : ∀ q, q ≠ gp → q ≠ tp → r'.x q = s.x q :=
    fun q hgp htp => (hr.kept q htp hgp htp).trans (h.x q hgp htp)
  have hnone : stored none = ∅ := rfl
  have hafter : Matches g.sym g.address ⟨_, s.x, s.csrs, memAfter s.mem none,
      (s.lost \ stored none) ∪ touched g.sym (s.x sp)⟩ ⟨r'.x, r'.x tp, t.csrs, m'⟩ :=
    h.scratch room htarget hx h.zero (fun a ha => absurd ha fun hin => hin) hm'
  rw [hnone, Set.sdiff_empty] at hafter
  exact hafter

theorem computes_not_jumps {i : Instr} (hi : computes i = true) : jumps i = false := by
  cases i with
  | op | opImm | shiftImm | load | store => rfl
  | _ => cases hi

/-- A line without a macro keeps its instruction. -/
theorem Linked.Line.unchanged {k : Nat} {i : Instr} (hl : g.Line k st is) (hi : st.meaning = some i)
    (huse : st.usesScratch g.sym = false) : st = .instr i ∧ is = [i] := by
  have hcode := hl.code
  cases st with
  | instr i' =>
    cases hi
    have hnone : macroOf g.sym i = none :=
      Option.isNone_iff_eq_none.mp (Option.isSome_eq_false_iff.mp huse)
    refine ⟨rfl, ?_⟩
    cases i with
    | jal | branch => cases hcode
    | _ =>
      simp only [expand, hnone, Option.getD_none, Option.some_inj] at hcode
      exact hcode.symm
  | not | seqz | sltz => cases huse
  | _ => cases hi

/-- One line of the program is matched by its code. -/
theorem Matches.step {s' : State} (h : Matches g.sym g.address s t)
    (hstep : Step g.sym g.address g.program s s') :
    ∃ t', g.image.Leads t t' ∧ Matches g.sym g.address s' t' := by
  cases hstep with
  | line hk hi fits ok next =>
    rename_i st i n
    obtain ⟨is, hl⟩ := Linked.exists_line hk
    cases huse : st.usesScratch g.sym with
    | true =>
      rw [if_neg (by rw [computes_not_jumps (scratch_computes hi huse)]; exact Bool.false_ne_true)]
        at next
      subst next
      rcases fits.dest huse with hrd | ⟨rs1, rs2, imm, rfl⟩ | ⟨rs1, rs2, rfl⟩
      · exact h.step_value hl hi fits ok huse hrd
      · cases st with
        | instr =>
          cases hi
          exact h.step_half hl fits ok
        | _ => cases hi
      · cases st with
        | instr =>
          cases hi
          exact h.step_sub_sp hl fits
        | _ => cases hi
    | false =>
      obtain ⟨rfl, rfl⟩ := hl.unchanged hi huse
      exact h.step_native hl fits ok next huse
  | la hk hrd =>
    obtain ⟨is, hl⟩ := Linked.exists_line hk
    exact h.step_la hl hrd
  | branch hk hregs room =>
    obtain ⟨is, hl⟩ := Linked.exists_line hk
    exact h.step_branch hl hregs room
  | jal hk =>
    obtain ⟨is, hl⟩ := Linked.exists_line hk
    exact h.step_jal hl
  | tail hk =>
    obtain ⟨is, hl⟩ := Linked.exists_line hk
    exact h.step_tail hl

/-- A run of the expanded program matches the run of the program. -/
theorem expanded_program_runs {g : Linked} {s s' : State} {t : Hart}
    (h : Matches g.sym g.address s t) (hrun : ReflTransGen (Step g.sym g.address g.program) s s') :
    ∃ t', g.image.Leads t t' ∧ Matches g.sym g.address s' t' := by
  induction hrun with
  | refl => exact ⟨t, .refl, h⟩
  | tail _ hstep ih =>
    obtain ⟨t₁, hlead₁, hm₁⟩ := ih
    obtain ⟨t₂, hlead₂, hm₂⟩ := hm₁.step hstep
    exact ⟨t₂, hlead₁.trans hlead₂, hm₂⟩

end Simulation

/-- The expanded program has only instructions of minirv, if the lines without a
macro have. -/
theorem expanded_program_is_base (g : Linked)
    (h : ∀ i, .instr i ∈ g.program → macroOf g.sym i = none → isBase i = true) :
    ∀ i ∈ g.image.code, isBase i = true :=
  List.all_eq_true.mp (base_codeFrom g.sym h 0)

/-! A loop of two lines that does not end: the difference of two equal numbers,
tested for zero. -/

def sampleProgram : List Stmt :=
  [.instr (.op .sub 10#5 11#5 12#5), .branch .eq 10#5 0#5 0]

def sample : Linked where
  sym := .ofSections 0x80100000#32 0x80200000#32
  base := 0x80000000#32
  program := sampleProgram
  aligned := by decide
  assembles := by
    rintro (_ | _ | k) st hk
    · cases hk
      rfl
    · cases hk
      rfl
    · cases hk

def sampleRegs : Reg → BitVec 32 := fun q =>
  if q = 2#5 then 0x80010000#32 else if q = 11#5 then 7#32 else if q = 12#5 then 7#32 else 0#32

def sampleMemory : Memory := fun a => rodataByte (a - 0x80100000#32).toNat

def sampleState : State := ⟨0, sampleRegs, ⟨0#32, 0#32, 0#32⟩, sampleMemory, ∅⟩

def sampleHart : Hart := ⟨sampleRegs, 0x80000000#32, ⟨0#32, 0#32, 0#32⟩, sampleMemory⟩

theorem sample_matches : Matches sample.sym sample.address sampleState sampleHart where
  pc := by decide
  x _ _ _ := rfl
  zero := rfl
  csrs := rfl
  mem _ _ := rfl
  tables := by
    refine tables_of_rodata (by decide) fun k hk => ?_
    have hsub : (0x80100000#32 + BitVec.ofNat 32 k - 0x80100000#32).toNat = k := by
      bv_omega
    exact congrArg rodataByte hsub
  table _ _ := fun h => h

theorem sample_room : Room sample.sym 0x80010000#32 where
  aligned := by decide
  array a ha := by
    have harray : (a - 0x80200000#32).toNat < 256 := ha
    intro hin
    have hscratch : (a - (0x80010000#32 - 28#32)).toNat < 28 := hin
    bv_omega
  table a ha := by
    have hrodata : (a - 0x80100000#32).toNat < 512 + 0x48000 := by
      simp only [Symbols.IsTable, sample, Symbols.ofSections] at ha
      rcases ha with ha | ha | ha | ha | ha | ha <;> bv_omega
    constructor
    · intro hin
      have hscratch : (a - (0x80010000#32 - 28#32)).toNat < 28 := hin
      bv_omega
    · intro hin
      have harray : (a - 0x80200000#32).toNat < 256 := hin
      bv_omega

theorem expanded_loop_is_base :
    sample.image.code.length = 59 ∧ sample.image.code.all isBase = true := by
  refine ⟨by decide +kernel, List.all_eq_true.mpr ?_⟩
  refine expanded_program_is_base sample fun i hi hm => ?_
  rcases List.mem_cons.mp hi with h | hi
  · cases h
    cases hm
  · cases List.mem_singleton.mp hi

/-- The state behind the subtraction. -/
def sampleSecond : State :=
  sampleState.after sample.sym sample.address (.instr (.op .sub 10#5 11#5 12#5))
    (.op .sub 10#5 11#5 12#5) 1

theorem expanded_program_runs_loop : ∃ s', s'.line = 0 ∧ s'.x 10#5 = 0#32 ∧
    ∃ t', sample.image.Leads sampleHart t' ∧ Matches sample.sym sample.address s' t' := by
  have hsub : Step sample.sym sample.address sample.program sampleState sampleSecond := by
    refine .line rfl rfl ?_ rfl rfl
    exact {
      regs := by decide
      loads := fun a ha => absurd ha fun h => h
      stores := fun a ha => absurd ha fun h => h
      room := fun _ => sample_room
      dest := fun _ => Or.inl (by decide)
      apart := fun _ a ha => absurd ha fun h => h.elim id id
      seqz := by
        rintro rd rs ⟨⟩ }
  have hline : sample.program[sampleSecond.line]? = some (.branch .eq 10#5 0#5 0) := rfl
  have hbranch : Step sample.sym sample.address sample.program sampleSecond _ :=
    .branch hline (by decide) sample_room
  exact ⟨_, rfl, rfl,
    expanded_program_runs sample_matches ((ReflTransGen.single hsub).tail hbranch)⟩

end Minirv
