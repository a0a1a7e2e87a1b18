import AiOsoc.Hart

/-!
# Contexts and the switch between them

`abstract-machine/am/src/riscv/npc/trap.S` and `cte.c`, with `context.c` of
RT-Thread's board package, for RV32E. The assembly is run by the instruction
table. The C functions act on the memory, where the globals `switch_from` and
`switch_to` and the slots `thread->sp` lie at the addresses of a layout. What the
compiler chooses, the registers and the stack bytes a C function leaves behind,
is a parameter.
-/

namespace Am

set_option autoImplicit false

open Rv32e ByteMemory

/-! ## `trap.S` -/

def NR_REGS : Nat := 16

def CONTEXT_SIZE : Nat := (NR_REGS + 3 + 1) * 4
def OFFSET_SP : BitVec 12 := BitVec.ofNat 12 (2 * 4)
def OFFSET_CAUSE : BitVec 12 := BitVec.ofNat 12 ((NR_REGS + 0) * 4)
def OFFSET_STATUS : BitVec 12 := BitVec.ofNat 12 ((NR_REGS + 1) * 4)
def OFFSET_EPC : BitVec 12 := BitVec.ofNat 12 ((NR_REGS + 2) * 4)

/-- All registers but `x0` and `sp`. -/
def REGS : List Reg :=
  [1#5, 3#5, 4#5, 5#5, 6#5, 7#5, 8#5, 9#5, 10#5, 11#5, 12#5, 13#5, 14#5, 15#5]

def PUSH (n : Reg) : Instr := sw n (n.setWidth 12 * 4#12) sp
def POP (n : Reg) : Instr := lw n (n.setWidth 12 * 4#12) sp

def t0 : Reg := 5#5
def t1 : Reg := 6#5
def t2 : Reg := 7#5
def s0 : Reg := 8#5
def s1 : Reg := 9#5
def a0 : Reg := 10#5
def a5 : Reg := 15#5
def ra : Reg := 1#5

def amKcontextStart : List Instr := [mv a0 s0, .jalr ra s1 0#12]

/-- `__am_asm_trap` up to the call of `__am_irq_handle`. -/
def amAsmTrapEntry : List Instr :=
  [addi sp sp (-BitVec.ofNat 12 CONTEXT_SIZE)] ++ REGS.map PUSH ++
    [csrr t0 mcause, csrr t1 mstatus, csrr t2 mepc,
      sw t0 OFFSET_CAUSE sp, sw t1 OFFSET_STATUS sp, sw t2 OFFSET_EPC sp, sw sp OFFSET_SP sp,
      mv a0 sp]

/-- `__am_asm_trap` after the call. -/
def amAsmTrapExit : List Instr :=
  [mv sp a0, lw t1 OFFSET_STATUS sp, lw t2 OFFSET_EPC sp, csrw mstatus t1, csrw mepc t2] ++
    REGS.map POP ++ [addi sp sp (BitVec.ofNat 12 CONTEXT_SIZE), .mret]

/-! ## Memory -/

/-- What lies in memory: the stack of the boot code, the stack of a thread, its
`sp` field, and the two globals of `context.c`. -/
inductive Object (ι : Type) where
  | bootStack
  | stack (i : ι)
  | slot (i : ι)
  | switchFrom
  | switchTo
  deriving DecidableEq

/-- A thread and the arguments of its `rt_hw_stack_init`. -/
structure Thread where
  stack : Span
  slot : BitVec 32
  tentry : BitVec 32
  parameter : BitVec 32
  stackAddr : BitVec 32
  texit : BitVec 32
  deriving Repr, DecidableEq

namespace Thread

/-- `sp` in `rt_hw_stack_init`, where the `thread_start_args` are. -/
def args (t : Thread) : BitVec 32 := (t.stackAddr &&& ~~~3#32) - 12#32

end Thread

/-- The threads of a system and the addresses its linker and allocator chose. -/
structure Layout (ι : Type) where
  thread : ι → Thread
  bootStack : Span
  switchFrom : BitVec 32
  switchTo : BitVec 32
  asmTrap : BitVec 32
  kcontextStart : BitVec 32
  threadStart : BitVec 32

namespace Layout

variable {ι : Type} (L : Layout ι)

def place : Object ι → Span
  | .bootStack => L.bootStack
  | .stack i => (L.thread i).stack
  | .slot i => .block (L.thread i).slot 4
  | .switchFrom => .block L.switchFrom 4
  | .switchTo => .block L.switchTo 4

/-- Objects do not overlap and do not lie at the null pointer, code is aligned as
an instruction is, and a stack has room for what `rt_hw_stack_init` puts there. -/
structure Valid : Prop where
  apart : ∀ o p : Object ι, o ≠ p → (L.place o).Apart (L.place p)
  nonnull : ∀ o : Object ι, 0 < (L.place o).lo
  below : ∀ o : Object ι, (L.place o).hi ≤ 2 ^ 32
  asmTrap : L.asmTrap.toNat % 4 = 0
  asmTrapNonnull : L.asmTrap ≠ 0#32
  kcontextStart : L.kcontextStart.toNat % 4 = 0
  threadStart : L.threadStart.toNat % 4 = 0
  room : ∀ i, (L.thread i).stack.lo + CONTEXT_SIZE + 12 ≤ (L.thread i).stackAddr.toNat / 4 * 4
  inside : ∀ i, (L.thread i).stackAddr.toNat ≤ (L.thread i).stack.hi

end Layout

/-! ## `cte.c` and `context.c` -/

inductive Event where
  | null | yield | syscall | pagefault | error | irqTimer | irqIodev
  deriving Repr, DecidableEq

/-- The field of a `Context` at a byte offset. -/
def field (c : BitVec 32) (offset : BitVec 12) : BitVec 32 := c + offset.signExtend 32

/-- The word `gpr[n]` of a `Context`. -/
def gpr (c : BitVec 32) (n : Reg) : BitVec 32 := field c (n.setWidth 12 * 4#12)

/-- `__am_irq_handle` with the handler that `cte_init` registered. There is no
result if an assertion fails. -/
def amIrqHandle
    (userHandler : Option (Event → Memory → BitVec 32 → Option (Memory × BitVec 32)))
    (m : Memory) (c : BitVec 32) : Option (Memory × BitVec 32) :=
  match userHandler with
  | none => some (m, c)
  | some handler => do
    let (ev, m) :=
      if loadWord m (field c OFFSET_CAUSE) = 11#32 then
        (if loadWord m (gpr c a5) = -1#32 then Event.yield else Event.syscall,
          storeWord m (field c OFFSET_EPC) (loadWord m (field c OFFSET_EPC) + 4#32))
      else (Event.error, m)
    let (m, c) ← handler ev m c
    if c ≠ 0#32 then some (m, c) else none

section ContextC
variable {ι : Type} (L : Layout ι)

def evHandler (e : Event) (m : Memory) (c : BitVec 32) : Option (Memory × BitVec 32) :=
  match e with
  | .yield =>
    let m := if loadWord m L.switchFrom ≠ 0#32 then storeWord m (loadWord m L.switchFrom) c else m
    let c := if loadWord m L.switchTo ≠ 0#32 then loadWord m (loadWord m L.switchTo) else c
    let m := storeWord m L.switchFrom 0#32
    let m := storeWord m L.switchTo 0#32
    some (m, c)
  | _ => none

/-- `kcontext` on a stack that ends at `stackEnd`, with the context it makes. -/
def kcontext (m : Memory) (stackEnd entry arg : BitVec 32) : Memory × BitVec 32 :=
  let c := stackEnd - BitVec.ofNat 32 CONTEXT_SIZE
  let m := memset m c 0#8 CONTEXT_SIZE
  let m := storeWord m (field c OFFSET_EPC) L.kcontextStart
  let m := storeWord m (gpr c s0) arg
  let m := storeWord m (gpr c s1) entry
  (m, c)

def rtHwStackInit (m : Memory) (tentry parameter stackAddr texit : BitVec 32) :
    Memory × BitVec 32 :=
  let sp := stackAddr
  let sp := sp &&& ~~~3#32
  let sp := sp - 12#32
  let m := storeWord m sp tentry
  let m := storeWord m (sp + 4#32) parameter
  let m := storeWord m (sp + 8#32) texit
  kcontext L m sp L.threadStart sp

/-- `thread->sp = rt_hw_stack_init(...)`. -/
def threadInit (m : Memory) (t : Thread) : Memory :=
  let (m, c) := rtHwStackInit L m t.tentry t.parameter t.stackAddr t.texit
  storeWord m t.slot c

/-! ## Running them -/

/-- What a compiled C function leaves where it may leave anything. -/
structure Junk where
  x : Reg → BitVec 32
  pc : BitVec 32
  mem : Memory

/-- The return of a C function called at `h`, which made the memory `m` and used
the stack below `sp` for its frames. -/
def returned (own : Span) (junk : Junk) (h : Hart) (m : Memory) (result : BitVec 32) : Hart where
  x := Function.update (Function.update junk.x a0 result) 0#5 0#32
  pc := junk.pc
  csrs := h.csrs
  mem := overwrite ⟨own.lo, (h.x sp).toNat⟩ junk.mem m

/-- `__am_cte_init`: the trap vector. The handler it registers is `evHandler`. -/
def amCteInit (h : Hart) : Hart := { h with csrs := h.csrs.write mtvec L.asmTrap }

/-- `__am_asm_trap` on the stack `own`. -/
def amAsmTrap (own : Span) (junk : Junk) (h : Hart) : Option Hart := do
  let h ← h.run amAsmTrapEntry
  let (m, c) ← amIrqHandle (some (evHandler L)) h.mem (h.x a0)
  (returned own junk h m c).run amAsmTrapExit

/-- An `ecall` on the stack `own`, until the `mret` of its handler. -/
def ecall (own : Span) (junk : Junk) (h : Hart) : Option Hart :=
  let h := h.step .ecall
  if h.pc = L.asmTrap then amAsmTrap L own junk h else none

/-- The `ecall` of `yield`, in a C function on the stack `own` that has made the
memory `m`. -/
def yieldSite (own : Span) (junk : Junk) (h : Hart) (m : Memory) : Hart :=
  Hart.step { x := Function.update junk.x 0#5 0#32, pc := junk.pc, csrs := h.csrs,
              mem := overwrite own junk.mem m } (li a5 (-1#12))

/-- The `ecall` of `rt_hw_context_switch`. -/
def rtHwContextSwitch (own : Span) (junk : Junk) (h : Hart) (src dst : BitVec 32) : Hart :=
  let m := storeWord h.mem L.switchFrom src
  let m := storeWord m L.switchTo dst
  yieldSite own junk h m

/-- The `ecall` of `rt_hw_context_switch_to`. -/
def rtHwContextSwitchTo (own : Span) (junk : Junk) (h : Hart) (dst : BitVec 32) : Hart :=
  let m := storeWord h.mem L.switchFrom 0#32
  let m := storeWord m L.switchTo dst
  yieldSite own junk h m

end ContextC

end Am
