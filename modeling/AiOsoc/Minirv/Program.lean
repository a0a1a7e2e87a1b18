import Mathlib.Algebra.Group.Nat.Defs
import AiOsoc.Minirv.Branch
import AiOsoc.Minirv.Access

/-!
# Programs

The assembly that the compiler hands to minirv, with labels as line numbers, its
expansion, and where the linker puts each line. What the program means is the
instruction table, run line by line: whatever the macros write is memory that the
program cannot rely on.
-/

namespace Minirv

set_option autoImplicit false

open Rv32e ByteMemory

/-- What an assembly line can take the address of. -/
inductive Ref where
  | data (a : BitVec 32)
  | line (l : Nat)
  deriving Repr, DecidableEq

inductive Stmt where
  | instr (i : Instr)
  | not (rd rs : Reg)
  | seqz (rd rs : Reg)
  | sltz (rd rs : Reg)
  | la (rd : Reg) (r : Ref)
  | branch (cond : Cond) (rs1 rs2 : Reg) (l : Nat)
  | jal (rd : Reg) (l : Nat)
  | tail (l : Nat)
  deriving Repr, DecidableEq

/-! ## Expansion -/

/-- The instructions of minirv. -/
def isBase : Instr → Bool
  | .op .add .. | .opImm .add .. | .lui .. | .load .word .. | .load .byte true .. | .store .word ..
  | .store .byte .. | .jalr .. => true
  | _ => false

section Expand
variable (sym : Symbols)

/-- `def_itype`: an immediate operand goes through `tp`. -/
def itype (imm : BitVec 12) (rtype : Reg → Option (List Instr)) : Option (List Instr) :=
  (rtype tp).map (li tp imm :: ·)

/-- The macro of an instruction, if there is one; the assembler may stop in it. -/
def macroOf : Instr → Option (Option (List Instr))
  | .op f rd rs1 rs2 => match f with
    | .add => none
    | .sub => some (some (sub sym rd rs1 rs2))
    | .sll => some (some (sll sym rd rs1 rs2))
    | .slt => some (some (slt sym rd rs1 rs2))
    | .sltu => some (some (sltu sym rd rs1 rs2))
    | .xor => some (logic sym.xor8Table rd rs1 rs2)
    | .srl => some (some (srl sym rd rs1 rs2))
    | .sra => some (some (sra sym rd rs1 rs2))
    | .or => some (logic sym.or8Table rd rs1 rs2)
    | .and => some (logic sym.and8Table rd rs1 rs2)
  | .opImm f rd rs1 imm => match f with
    | .slt => some (itype imm fun t => some (slt sym rd rs1 t))
    | .sltu => some (itype imm fun t => some (sltu sym rd rs1 t))
    | .xor => some (itype imm (logic sym.xor8Table rd rs1))
    | .or => some (itype imm (logic sym.or8Table rd rs1))
    | .and => some (itype imm (logic sym.and8Table rd rs1))
    | _ => none
  | .shiftImm f rd rs1 shamt => match f with
    | .sll => some (some (slli rd rs1 shamt.toNat))
    | .srl => some (some (srli sym rd rs1 shamt.toNat))
    | .sra => some (some (srai sym rd rs1 shamt.toNat))
    | _ => none
  | .load .byte false rd rs1 imm => some (some (lb sym rd rs1 imm))
  | .load .half unsigned rd rs1 imm => some (if imm = 2047#12 then none
    else if unsigned then some (lhu rd rs1 imm) else some (lh sym rd rs1 imm))
  | .store .half rs1 rs2 imm => some (if imm = 2047#12 then none else some (sh rs2 rs1 imm))
  | _ => none

def Ref.address (address : Nat → BitVec 32) : Ref → BitVec 32
  | .data a => a
  | .line l => address l

/-- The code of line `k`. An instruction without a macro stays as it is; jumps have
labels. -/
def expand (address : Nat → BitVec 32) (k : Nat) : Stmt → Option (List Instr)
  | .instr (.jal ..) | .instr (.branch ..) => none
  | .instr i => (macroOf sym i).getD (some [i])
  | .not rd rs => some (not sym rd rs)
  | .seqz rd rs => some (seqz sym rd rs)
  | .sltz rd rs => some (msb rd rs)
  | .la rd r => some (la rd (r.address address))
  | .branch cond rs1 rs2 l => some (branch sym cond rs1 rs2 (address l) (address (k + 1)))
  | .jal rd l => some (jal rd (address l))
  | .tail l => some (tail (address l))

/-! ## Layout -/

/-- The number of instructions of a line, wherever the labels are. -/
def Stmt.size (s : Stmt) : Nat := ((expand sym (fun _ => 0#32) 0 s).getD []).length

/-- The number of instructions before line `k`. -/
def offset : List Stmt → Nat → Nat
  | s :: p, k + 1 => s.size sym + offset p k
  | _, _ => 0

def lineAddress (base : BitVec 32) (p : List Stmt) (k : Nat) : BitVec 32 :=
  base + BitVec.ofNat 32 (4 * offset sym p k)

/-- The code of the lines from line `k` on. -/
def codeFrom (address : Nat → BitVec 32) (k : Nat) : List Stmt → List Instr
  | [] => []
  | s :: p => (expand sym address k s).getD [] ++ codeFrom address (k + 1) p

def code (base : BitVec 32) (p : List Stmt) : List Instr :=
  codeFrom sym (lineAddress sym base p) 0 p

end Expand

section Layout
variable {sym : Symbols} {p : List Stmt}

theorem length_la (r : Reg) (a : BitVec 32) : (la r a).length = 2 := rfl

theorem length_branchResolve (a b a' b' : BitVec 32) (high : Bool) :
    (branchResolve a b high).length = (branchResolve a' b' high).length := by
  cases high <;> simp only [branchResolve, List.length_append, length_la, Bool.false_eq_true,
    if_true, if_false]

/-- Where the labels are does not change the length of a line. -/
theorem length_expand (address : Nat → BitVec 32) (k : Nat) (s : Stmt) :
    ((expand sym address k s).getD []).length = s.size sym := by
  cases s with
  | instr i => cases i <;> simp only [Stmt.size, expand]
  | not | seqz | sltz => simp only [Stmt.size, expand]
  | la rd r => simp only [Stmt.size, expand, Option.getD_some, length_la]
  | tail l =>
    simp only [Stmt.size, expand, tail, callTemplate, Option.getD_some, List.length_append,
      length_la]
  | branch cond rs1 rs2 l =>
    simp only [Stmt.size, expand, branch, Option.getD_some, List.length_append]
    rw [length_branchResolve _ _ 0#32 0#32]
  | jal rd l =>
    simp only [Stmt.size, expand, jal, Option.getD_some]
    split <;> simp only [j, callTemplate, List.length_append, length_la]

theorem offset_succ_line {k : Nat} {s : Stmt} (hk : p[k]? = some s) :
    offset sym p (k + 1) = offset sym p k + s.size sym := by
  induction p generalizing k with
  | nil => cases hk
  | cons s' p ih =>
    cases k with
    | zero =>
      cases hk
      simp only [offset, Nat.add_comm]
    | succ k =>
      have hrest : p[k]? = some s := hk
      rw [offset, ih hrest, offset, Nat.add_assoc]

/-- The code of a line is where the layout puts it. -/
theorem codeFrom_at (address : Nat → BitVec 32) {k : Nat} {s : Stmt} (hk : p[k]? = some s)
    (k₀ : Nat) {j : Nat} {i : Instr} (hj : ((expand sym address (k₀ + k) s).getD [])[j]? = some i) :
    (codeFrom sym address k₀ p)[offset sym p k + j]? = some i := by
  induction p generalizing k k₀ with
  | nil => cases hk
  | cons s' p ih =>
    cases k with
    | zero =>
      cases hk
      rw [Nat.add_zero] at hj
      obtain ⟨hlt, -⟩ := List.getElem?_eq_some_iff.mp hj
      have hzero : offset sym (s :: p) 0 = 0 := rfl
      rw [codeFrom, hzero, Nat.zero_add, List.getElem?_append_left hlt]
      exact hj
    | succ k =>
      have hrest : p[k]? = some s := hk
      have hlen : ((expand sym address k₀ s').getD []).length = s'.size sym :=
        length_expand address k₀ s'
      have hj' : ((expand sym address (k₀ + 1 + k) s).getD [])[j]? = some i := by
        rwa [Nat.add_assoc, Nat.add_comm 1 k]
      have hpos : s'.size sym ≤ offset sym (s' :: p) (k + 1) + j := by
        rw [offset]
        omega
      rw [codeFrom, List.getElem?_append_right (by rw [hlen]; exact hpos), hlen, offset,
        Nat.add_assoc, Nat.add_sub_cancel_left]
      exact ih hrest (k₀ + 1) hj'

end Layout

/-! ## Base instructions -/

section Base
variable (sym : Symbols) (rd rs rs1 rs2 : Reg) (a b : BitVec 32) (imm : BitVec 12) (n : Nat)

theorem base_la : (la rd a).all isBase = true := rfl

theorem base_doublings : (doublings rd rs n).all isBase = true := by
  rw [doublings, List.all_cons, List.all_replicate]
  split <;> rfl

theorem base_slliRest : (slliRest rd n).all isBase = true := by
  unfold slliRest
  split
  · rfl
  · exact base_doublings ..

theorem base_sh : (sh rs rs1 imm).all isBase = true := rfl

theorem base_slli : (slli rd rs n).all isBase = true := by
  unfold slli
  split
  · split <;> rfl
  · split
    · rw [List.all_append, base_slliRest]
      rfl
    · split
      · rw [List.all_append, base_slliRest]
        rfl
      · exact base_doublings ..

theorem base_msb : (msb rd rs).all isBase = true := by
  rw [msb, List.all_append, List.all_append, base_slli]
  rfl

theorem base_sub : (sub sym rd rs1 rs2).all isBase = true := rfl

theorem base_sltTemplate : (sltTemplate sym a rd rs1 rs2).all isBase = true := by
  simp only [sltTemplate, List.all_append, base_msb, base_slli, base_sub, base_la, Bool.and_true]
  rfl

theorem base_logic {is : List Instr} (h : logic a rd rs1 rs2 = some is) : is.all isBase = true := by
  unfold logic at h
  split at h
  · cases h
    rfl
  · simp only [Option.ite_none_left_eq_some, Option.some_inj] at h
    obtain ⟨-, -, -, rfl⟩ := h
    rfl

theorem base_branchResolve (high : Bool) : (branchResolve a b high).all isBase = true := by
  simp only [branchResolve, List.all_append, base_slli]
  cases high <;> rfl

theorem base_notPositive : (notPositive sym rs2).all isBase = true := by
  simp only [notPositive, List.all_append, base_msb, base_la]
  rfl

theorem base_condition (cond : Cond) : (condition sym cond rs1 rs2).1.all isBase = true := by
  have hequal : (equal sym rs1 rs2).all isBase = true := by
    unfold equal
    split
    · rfl
    · split <;> rfl
  cases cond with
  | eq | ne => exact hequal
  | lt =>
    simp only [condition]
    split
    · exact base_msb ..
    · split
      · exact base_notPositive ..
      · exact base_sltTemplate ..
  | ge =>
    simp only [condition]
    split
    · exact base_notPositive ..
    · exact base_sltTemplate ..
  | ltu | geu => exact base_sltTemplate ..

theorem base_shiftRow : (shiftRow sym a rs2).all isBase = true := by
  simp only [shiftRow, List.all_append, base_slli, base_la]
  rfl

theorem base_getShiftByteInTp : (getShiftByteInTp rs n).all isBase = true := by
  simp only [getShiftByteInTp, List.all_append, base_slli]
  rfl

theorem base_sll : (sll sym rd rs1 rs2).all isBase = true := by
  simp only [sll, List.all_append, base_shiftRow, base_getShiftByteInTp, base_slli, base_sh]
  rfl

theorem base_shiftRightTemplate (amount : Amount) (arith : Bool) :
    (shiftRightTemplate sym rd rs1 amount arith).all isBase = true := by
  unfold shiftRightTemplate
  split
  · split
    · simp only [List.all_append, base_slli, base_la]
      rfl
    · rfl
  · have hbase : (shiftRightBase sym amount).all isBase = true := by
      cases amount with
      | reg => exact base_shiftRow ..
      | imm => rfl
    simp only [List.all_append, hbase, shiftRightLow, base_getShiftByteInTp]
    cases arith <;> rfl

theorem base_lb : (lb sym rd rs1 imm).all isBase = true := by
  rw [lb, List.all_append, srai, base_shiftRightTemplate]
  rfl

theorem base_lh : (lh sym rd rs1 imm).all isBase = true := by
  rw [lh, List.all_append, List.all_append, srai, base_shiftRightTemplate]
  rfl

theorem base_itype {rtype : Reg → Option (List Instr)} {is : List Instr}
    (h : itype imm rtype = some is) (hr : ∀ js, rtype tp = some js → js.all isBase = true) :
    is.all isBase = true := by
  obtain ⟨js, hjs, rfl⟩ := Option.map_eq_some_iff.mp h
  rw [List.all_cons, hr js hjs]
  rfl

theorem base_macroOf {i : Instr} {is : List Instr} (h : macroOf sym i = some (some is)) :
    is.all isBase = true := by
  cases i with
  | op f rd rs1 rs2 =>
    cases f with
    | add => cases h
    | sub =>
      cases h
      exact base_sub ..
    | sll =>
      cases h
      exact base_sll ..
    | slt | sltu =>
      cases h
      exact base_sltTemplate ..
    | srl | sra =>
      cases h
      exact base_shiftRightTemplate ..
    | xor | or | and => exact base_logic _ _ _ _ (Option.some_inj.mp h)
  | opImm f rd rs1 imm =>
    cases f with
    | slt | sltu =>
      refine base_itype _ (Option.some_inj.mp h) fun js hjs => ?_
      cases hjs
      exact base_sltTemplate ..
    | xor | or | and =>
      exact base_itype _ (Option.some_inj.mp h) fun js hjs => base_logic _ _ _ _ hjs
    | _ => cases h
  | shiftImm f rd rs1 shamt =>
    cases f with
    | sll =>
      cases h
      exact base_slli ..
    | srl | sra =>
      cases h
      exact base_shiftRightTemplate ..
    | _ => cases h
  | load width unsigned rd rs1 imm =>
    cases width with
    | word => cases h
    | byte =>
      cases unsigned with
      | true => cases h
      | false =>
        cases h
        exact base_lb ..
    | half =>
      have h := Option.some_inj.mp h
      rw [Option.ite_none_left_eq_some] at h
      obtain ⟨-, h⟩ := h
      cases unsigned with
      | true =>
        cases h
        rfl
      | false =>
        cases h
        exact base_lh ..
  | store width rs1 rs2 imm =>
    cases width with
    | half =>
      have h := Option.some_inj.mp h
      rw [Option.ite_none_left_eq_some, Option.some_inj] at h
      obtain ⟨-, rfl⟩ := h
      rfl
    | _ => cases h
  | _ => cases h

theorem base_expand {address : Nat → BitVec 32} {k : Nat} {st : Stmt}
    (h : ∀ i, st = .instr i → macroOf sym i = none → isBase i = true) :
    ((expand sym address k st).getD []).all isBase = true := by
  cases st with
  | instr i =>
    have hmacro : (((macroOf sym i).getD (some [i])).getD []).all isBase = true := by
      match hm : macroOf sym i with
      | none => simp [h i rfl hm]
      | some none => rfl
      | some (some is) => exact base_macroOf sym hm
    cases i with
    | jal | branch => rfl
    | _ => exact hmacro
  | not | seqz => rfl
  | sltz => exact base_msb ..
  | la => rfl
  | branch cond rs1 rs2 l =>
    simp only [expand, branch, Option.getD_some, List.all_append, base_condition,
      base_branchResolve]
    rfl
  | jal rd l =>
    simp only [expand, jal, Option.getD_some]
    split <;> rfl
  | tail => rfl

theorem base_codeFrom {address : Nat → BitVec 32} {p : List Stmt}
    (h : ∀ i, .instr i ∈ p → macroOf sym i = none → isBase i = true) (k : Nat) :
    (codeFrom sym address k p).all isBase = true := by
  induction p generalizing k with
  | nil => rfl
  | cons st p ih =>
    have hst : ∀ i, st = .instr i → macroOf sym i = none → isBase i = true := by
      rintro i rfl
      exact h i List.mem_cons_self
    have hp : ∀ i, .instr i ∈ p → macroOf sym i = none → isBase i = true :=
      fun i hi => h i (List.mem_cons_of_mem st hi)
    rw [codeFrom, List.all_append, base_expand sym hst, ih hp]
    rfl

end Base

/-! ## Meaning -/

/-- The instruction that a line without a label stands for. -/
def Stmt.meaning : Stmt → Option Instr
  | .instr i => some i
  | .not rd rs => some (.opImm .xor rd rs (-1#12))
  | .seqz rd rs => some (.opImm .sltu rd rs 1#12)
  | .sltz rd rs => some (.op .slt rd rs 0#5)
  | _ => none

/-- The lines whose code works in scratch memory. -/
def Stmt.usesScratch (sym : Symbols) : Stmt → Bool
  | .instr i => (macroOf sym i).isSome
  | .not .. | .seqz .. | .sltz .. | .branch .. => true
  | .la .. | .jal .. | .tail .. => false

/-- Instructions that choose the next line. -/
def jumps : Instr → Bool
  | .jal .. | .jalr .. | .branch .. | .mret => true
  | _ => false

/-- A state of the program: the line, and the state of the hart. `lost` holds the
addresses whose contents the macros may have overwritten. -/
structure State where
  line : Nat
  x : Reg → BitVec 32
  csrs : Csrs
  mem : Memory
  lost : Set (BitVec 32)

def touched (sym : Symbols) (spv : BitVec 32) : Set (BitVec 32) :=
  {a | InScratch spv a ∨ InArray sym a}

/-- The addresses of the bytes that an instruction stores. -/
def stored : Option Access → Set (BitVec 32)
  | some (.store _ _ bytes) => {a | ∃ b ∈ bytes, b.1 = a}
  | _ => ∅

/-- The addresses of the bytes that an instruction loads. -/
def loaded : Option Access → Set (BitVec 32)
  | some (.load w addr) => {a | ∃ k < w.bytes, a = addr + BitVec.ofNat 32 k}
  | _ => ∅

/-- Room below the stack pointer. -/
structure Room (sym : Symbols) (spv : BitVec 32) : Prop where
  aligned : spv.toNat % 4 = 0
  array : ∀ a, InArray sym a → ¬InScratch spv a
  table : ∀ a, sym.IsTable a → ¬InScratch spv a ∧ ¬InArray sym a

namespace State
variable (sym : Symbols) (address : Nat → BitVec 32) (s : State)

def hart : Hart := ⟨s.x, address s.line, s.csrs, s.mem⟩

/-- What a line with the meaning `i` must keep to. `gp` and `tp` belong to the macros,
the tables are not stored to, and nothing is loaded that a macro may have overwritten.
A line whose code works in scratch memory has room below the stack pointer, and what
it loads or stores is elsewhere. If it leaves a value, it leaves it neither in `x0`
nor in `sp`, but for `sub`, which may move `sp`; and `seqz` does not leave it in `s0`. -/
structure Fits (st : Stmt) (i : Instr) : Prop where
  regs : ∀ q ∈ i.regs, q ≠ gp ∧ q ≠ tp
  loads : ∀ a ∈ loaded ((s.hart address).effect i).access, a ∉ s.lost
  stores : ∀ a ∈ stored ((s.hart address).effect i).access, ¬sym.IsTable a
  room : st.usesScratch sym = true → Room sym (s.x sp)
  dest : st.usesScratch sym = true → Dest i.dest ∨
    (∃ rs1 rs2 imm, i = .store .half rs1 rs2 imm) ∨ ∃ rs1 rs2, i = .op .sub sp rs1 rs2
  apart : st.usesScratch sym = true → ∀ a, a ∈ loaded ((s.hart address).effect i).access ∨
    a ∈ stored ((s.hart address).effect i).access → a ∉ touched sym (s.x sp)
  -- the macro pops `s0` after it has loaded the result
  seqz : ∀ rd rs, st = .seqz rd rs → rd ≠ s0

/-- The state at line `n` after a line with the meaning `i`. -/
def after (st : Stmt) (i : Instr) (n : Nat) : State where
  line := n
  x := ((s.hart address).step i).x
  csrs := ((s.hart address).step i).csrs
  mem := ((s.hart address).step i).mem
  lost := (s.lost \ stored ((s.hart address).effect i).access) ∪
    if st.usesScratch sym then touched sym (s.x sp) else ∅

end State

/-- One line of the program. -/
inductive Step (sym : Symbols) (address : Nat → BitVec 32) (p : List Stmt) : State → State → Prop
  | line {s : State} {st : Stmt} {i : Instr} {n : Nat} (hk : p[s.line]? = some st)
    (hi : st.meaning = some i) (fits : s.Fits sym address st i)
    (ok : ((s.hart address).effect i).trap = none)
    (next : if jumps i then address n = ((s.hart address).effect i).nextPc else n = s.line + 1) :
    Step sym address p s (s.after sym address st i n)
  | la {s : State} {rd : Reg} {r : Ref} (hk : p[s.line]? = some (.la rd r)) (hrd : rd ≠ x0) :
    Step sym address p s { s with
      line := s.line + 1, x := Function.update s.x rd (r.address address) }
  | branch {s : State} {cond : Cond} {rs1 rs2 : Reg} {l : Nat}
    (hk : p[s.line]? = some (.branch cond rs1 rs2 l))
    (hregs : (rs1 ≠ gp ∧ rs1 ≠ tp) ∧ rs2 ≠ gp ∧ rs2 ≠ tp) (room : Room sym (s.x sp)) :
    Step sym address p s { s with
      line := if cond.holds (s.x rs1) (s.x rs2) then l else s.line + 1,
      lost := s.lost ∪ touched sym (s.x sp) }
  | jal {s : State} {rd : Reg} {l : Nat} (hk : p[s.line]? = some (.jal rd l)) :
    Step sym address p s { s with
      line := l, x := if rd = x0 then s.x else Function.update s.x rd (address (s.line + 1)) }
  | tail {s : State} {l : Nat} (hk : p[s.line]? = some (.tail l)) :
    Step sym address p s { s with line := l }

end Minirv
