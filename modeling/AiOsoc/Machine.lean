import Mathlib.Data.Set.Insert
import AiOsoc.Hart

/-!
# A machine that fetches its instructions

The hart of the table with its program in memory. The instruction side may lag
behind the stores: a fetch returns any word that its address has held since the
last `fence.i`. Some addresses belong to a device that shows the time.
-/

namespace Rv32e

set_option autoImplicit false

open ByteMemory

/-- The addresses of the device, and the bytes it shows. -/
structure Platform where
  device : BitVec 32 → Bool
  shows : BitVec 64 → BitVec 32 → BitVec 8

/-- What one instruction gets from outside: the word fetched and the time. -/
structure Fetch where
  inst : BitVec 32
  time : BitVec 64
  deriving Repr, DecidableEq

/-- The number of the word at an address, and the word with a number. -/
def numberOf (addr : BitVec 32) : BitVec 30 := addr.extractLsb' 2 30

def wordAt (m : Memory) (w : BitVec 30) : BitVec 32 := loadWord m (w ++ 0#2)

/-- `visible w` holds the words that number `w` has held since the last `fence.i`. -/
structure Machine extends Hart where
  visible : BitVec 30 → Set (BitVec 32)
  halted : Bool

namespace Machine
variable (p : Platform) (m : Machine) (f : Fetch)

def answer : Answer := ⟨false, fun a => if p.device a then p.shows f.time a else m.mem a⟩

/-- The effect of the fetched word; a word that is no instruction is an exception. -/
def effect : Effect :=
  match decode f.inst with
  | some i => exec m.x m.pc m.csrs (m.answer p f) i
  | none => .raise m.csrs m.pc none 2#32

/-- The memory after an access; the device ignores what is written. -/
def stored (mem : Memory) : Option Access → Memory
  | some (.store _ addr bytes) => if p.device addr then mem else writeBytes mem bytes
  | _ => mem

def memAfter : Memory := stored p m.mem (m.effect p f).access

def after : Machine where
  x := match (m.effect p f).write with
    | some (rd, v) => Function.update m.x rd v
    | none => m.x
  pc := (m.effect p f).nextPc
  csrs := (m.effect p f).csrs
  mem := m.memAfter p f
  visible := fun w =>
    if decode f.inst = some .fenceI then {wordAt (m.memAfter p f) w}
    else insert (wordAt (m.memAfter p f) w) (m.visible w)
  halted := (m.effect p f).halts

/-- One instruction of a machine that has not halted. -/
structure Steps (m : Machine) (f : Fetch) (m' : Machine) : Prop where
  running : m.halted = false
  fetched : f.inst ∈ m.visible (numberOf m.pc)
  next : m' = m.after p f

end Machine

/-- An instruction looks at the answer only for a fault, and for the bytes of an
aligned load. -/
theorem exec_answer {x : Reg → BitVec 32} {pc : BitVec 32} {c : Csrs} {ans ans' : Answer}
    (i : Instr) (hf : ans.fault = ans'.fault)
    (hl : ∀ width unsigned rd rs1 imm, i = .load width unsigned rd rs1 imm →
      aligned width (x rs1 + imm.signExtend 32) = true →
      loadValue width unsigned ans.byte (x rs1 + imm.signExtend 32) =
        loadValue width unsigned ans'.byte (x rs1 + imm.signExtend 32)) :
    exec x pc c ans i = exec x pc c ans' i := by
  cases i with
  | load width unsigned rd rs1 imm =>
    have hload := hl width unsigned rd rs1 imm rfl
    simp only [exec, memory, hf]
    split
    · rename_i ha
      rw [hload ha]
    · rfl
  | store width rs1 rs2 imm => simp only [exec, memory, hf]
  | _ => rfl

end Rv32e
