import AiOsoc.Am.Switch

/-!
# Threads

Runs of a system of threads: threads are prepared by `rt_hw_stack_init`, the boot
code switches to one of them, and from then on the running thread switches to any
suspended one or to itself. In between it does what it likes, except to the stacks
and the slots of suspended threads. Every thread is resumed as it stopped.
-/

namespace Am

set_option autoImplicit false

open Rv32e ByteMemory

/-! ## A new thread -/

variable {ι : Type} {L : Layout ι}

/-- The context that `kcontext` makes up. -/
def Thread.fresh (L : Layout ι) (t : Thread) : Snapshot where
  x r := if r = sp ∨ r = s0 then t.args else if r = s1 then L.threadStart else 0#32
  pc := L.kcontextStart

/-- The `thread_start_args` of a thread are in memory. -/
structure Thread.ArgsIn (t : Thread) (m : Memory) : Prop where
  tentry : loadWord m t.args = t.tentry
  parameter : loadWord m (t.args + 4#32) = t.parameter
  texit : loadWord m (t.args + 8#32) = t.texit

section Kcontext
variable (L : Layout ι) {stackEnd : BitVec 32} (hend : 80 ≤ stackEnd.toNat)
  (m : Memory) (entry arg : BitVec 32)
include hend

theorem kcontext_toNat : (kcontext L m stackEnd entry arg).2.toNat + 80 = stackEnd.toNat := by
  have h : (kcontext L m stackEnd entry arg).2.toNat = stackEnd.toNat - 80 := by
    apply BitVec.toNat_sub_of_le
    rw [BitVec.le_def]
    exact hend
  omega

theorem kcontext_same {s : Span} (hs : s.Apart (.block (kcontext L m stackEnd entry arg).2 80)) :
    Same s m (kcontext L m stackEnd entry arg).1 := by
  have hc := kcontext_toNat L hend m entry arg
  have hlt := stackEnd.isLt
  have hc' : (kcontext L m stackEnd entry arg).2.toNat + 80 ≤ 2 ^ 32 := by omega
  apply (memset_same hs hc').trans
  apply (storeWord_word_same hc' (by decide : 4 * 18 + 4 ≤ 80) _ _ hs).trans
  apply (storeWord_word_same hc' (by decide : 4 * 8 + 4 ≤ 80) _ _ hs).trans
  exact storeWord_word_same hc' (by decide : 4 * 9 + 4 ≤ 80) _ _ hs

theorem kcontext_word {k : Nat} (hk : 4 * k + 4 ≤ 80) :
    loadWord (kcontext L m stackEnd entry arg).1 (word (kcontext L m stackEnd entry arg).2 k) =
      if 9 = k then entry else if 8 = k then arg else if 18 = k then L.kcontextStart else 0#32 := by
  have hc := kcontext_toNat L hend m entry arg
  have hlt := stackEnd.isLt
  have hc' : (kcontext L m stackEnd entry arg).2.toNat + 80 ≤ 2 ^ 32 := by omega
  generalize hg : (kcontext L m stackEnd entry arg).2 = c at *
  have hmem : (kcontext L m stackEnd entry arg).1 =
      storeWord (storeWord (storeWord (memset m c 0#8 80) (word c 18) L.kcontextStart)
        (word c 8) arg) (word c 9) entry := by
    rw [← hg]
    rfl
  rw [hmem, loadWord_word hc' hk (by decide), loadWord_word hc' hk (by decide),
    loadWord_word hc' hk (by decide), loadWord_memset m hc' (word_within hc' hk)]

end Kcontext

theorem fresh_gpr (L : Layout ι) (t : Thread) {r : Reg} (hr : r ∈ REGS) :
    (t.fresh L).x r = if 9 = r.toNat then L.threadStart else if 8 = r.toNat then t.args
      else if 18 = r.toNat then L.kcontextStart else 0#32 := by
  have h8 : ∀ r ∈ REGS, (8 = r.toNat ↔ r = sp ∨ r = s0) := by decide
  have h9 : ∀ r ∈ REGS, (9 = r.toNat ↔ r = s1) := by decide
  have h18 : ∀ r ∈ REGS, 18 ≠ r.toNat := by decide
  simp only [Thread.fresh, h8 r hr, h9 r hr, if_neg (h18 r hr)]
  by_cases h : r = s1
  · subst h
    rfl
  · rw [if_neg h, if_neg h]

/-- The memory with the `thread_start_args`. -/
def argsMemory (m : Memory) (t : Thread) : Memory :=
  storeWord (storeWord (storeWord m (word t.args 0) t.tentry) (word t.args 1) t.parameter)
    (word t.args 2) t.texit

/-- The memory and the context of `rt_hw_stack_init`. -/
def initialized (L : Layout ι) (m : Memory) (t : Thread) : Memory × BitVec 32 :=
  kcontext L (argsMemory m t) t.args L.threadStart t.args

theorem threadInit_eq (L : Layout ι) (m : Memory) (t : Thread) :
    threadInit L m t = storeWord (initialized L m t).1 t.slot (initialized L m t).2 := by
  have h0 : word t.args 0 = t.args := BitVec.add_zero _
  rw [initialized, argsMemory, h0]
  rfl

section Prepare
variable (hv : L.Valid) (i : ι) (m : Memory)
include hv

/-- The arguments lie on top of the stack, with room for a context below. -/
theorem args_bounds : (L.thread i).stack.lo + 80 ≤ (L.thread i).args.toNat ∧
    (L.thread i).args.toNat + 12 ≤ (L.thread i).stack.hi ∧ (L.thread i).args.toNat % 4 = 0 := by
  have hroom := hv.room i
  have hinside := hv.inside i
  have hsub : (L.thread i).args.toNat = 4 * ((L.thread i).stackAddr.toNat / 4) - 12 := by
    rw [Thread.args, BitVec.toNat_sub_of_le, toNat_and_not_three]
    · rfl
    · rw [BitVec.le_def, toNat_and_not_three]
      simp only [CONTEXT_SIZE, NR_REGS] at hroom
      simp only [BitVec.toNat_ofNat]
      omega
  simp only [CONTEXT_SIZE, NR_REGS] at hroom
  omega

theorem args_within : (Span.block (L.thread i).args 12).Within (L.thread i).stack := by
  have hargs := args_bounds hv i
  rw [Span.block_within]
  omega

theorem args_le : (L.thread i).args.toNat + 12 ≤ 2 ^ 32 :=
  Nat.le_trans (args_bounds hv i).2.1 (hv.below (.stack i))

theorem initialized_toNat :
    (initialized L m (L.thread i)).2.toNat + 80 = (L.thread i).args.toNat :=
  kcontext_toNat L (Nat.le_of_add_left_le (args_bounds hv i).1) ..

theorem initialized_within :
    (Span.block (initialized L m (L.thread i)).2 80).Within (L.thread i).stack := by
  have hargs := args_bounds hv i
  have hc := initialized_toNat hv i m
  rw [Span.block_within]
  omega

/-- The new context is below the arguments. -/
theorem initialized_args : Same (.block (L.thread i).args 12) (argsMemory m (L.thread i))
    (initialized L m (L.thread i)).1 := by
  apply kcontext_same L (Nat.le_of_add_left_le (args_bounds hv i).1)
  exact .inr (Nat.le_of_eq (initialized_toNat hv i m))

theorem threadInit_keeps {o : Object ι} (hstack : o ≠ .stack i) (hslot : o ≠ .slot i) :
    Keeps L o m (threadInit L m (L.thread i)) := by
  have hargs := args_bounds hv i
  have hle := args_le hv i
  have hap := hv.apart o (.stack i) hstack
  have hs := hap.mono (.refl _) (args_within hv i)
  rw [threadInit_eq]
  apply Same.trans (storeWord_word_same hle (by decide : 4 * 0 + 4 ≤ 12) _ _ hs)
  apply Same.trans (storeWord_word_same hle (by decide : 4 * 1 + 4 ≤ 12) _ _ hs)
  apply Same.trans (storeWord_word_same hle (by decide : 4 * 2 + 4 ≤ 12) _ _ hs)
  apply Same.trans (kcontext_same L (Nat.le_of_add_left_le hargs.1) _ _ _
    (hap.mono (.refl _) (initialized_within hv i m)))
  exact keeps_storeWord hv _ _ (p := .slot i) (.refl _) hslot

omit hv in
theorem threadInit_slot : loadWord (threadInit L m (L.thread i)) (L.thread i).slot =
    (initialized L m (L.thread i)).2 := by
  rw [threadInit_eq, loadWord_storeWord]

/-- Storing the slot does not touch the stack. -/
theorem threadInit_stack :
    Keeps L (.stack i) (initialized L m (L.thread i)).1 (threadInit L m (L.thread i)) := by
  rw [threadInit_eq]
  exact keeps_storeWord hv _ _ (p := .slot i) (.refl _) (by rintro ⟨⟩)

theorem threadInit_argsIn : (L.thread i).ArgsIn (threadInit L m (L.thread i)) := by
  have hle := args_le hv i
  have hsame := (initialized_args hv i m).trans ((threadInit_stack hv i m).mono (args_within hv i))
  have hword : ∀ k, 4 * k + 4 ≤ 12 →
      loadWord (threadInit L m (L.thread i)) (word (L.thread i).args k) =
        loadWord (argsMemory m (L.thread i)) (word (L.thread i).args k) :=
    fun k hk => loadWord_word_same hle hk hsame
  have h0 := hword 0 (by decide)
  have h1 := hword 1 (by decide)
  have h2 := hword 2 (by decide)
  rw [argsMemory, loadWord_word hle (by decide) (by decide), if_neg (by decide),
    loadWord_word hle (by decide) (by decide), if_neg (by decide), loadWord_storeWord] at h0
  rw [argsMemory, loadWord_word hle (by decide) (by decide), if_neg (by decide),
    loadWord_storeWord] at h1
  rw [argsMemory, loadWord_storeWord] at h2
  have hzero : word (L.thread i).args 0 = (L.thread i).args := BitVec.add_zero _
  rw [hzero] at h0
  exact ⟨h0, h1, h2⟩

theorem threadInit_held :
    Held L (threadInit L m (L.thread i)) i ((L.thread i).fresh L) := by
  have hargs := args_bounds hv i
  have hc := initialized_toNat hv i m
  have hin := initialized_within hv i m
  have hlt := (context_bounds hv (o := .stack i) hin).2
  have hslot := threadInit_slot (L := L) i m
  have hword : ∀ k, 4 * k + 4 ≤ 80 → loadWord (threadInit L m (L.thread i))
      (word (initialized L m (L.thread i)).2 k) =
        if 9 = k then L.threadStart else if 8 = k then (L.thread i).args
        else if 18 = k then L.kcontextStart else 0#32 := by
    intro k hk
    rw [loadWord_word_same hlt hk ((threadInit_stack hv i m).mono hin)]
    exact kcontext_word L (Nat.le_of_add_left_le hargs.1) _ _ _ hk
  have hsaved : Saved (threadInit L m (L.thread i)) (initialized L m (L.thread i)).2
      ((L.thread i).fresh L) := by
    refine ⟨?_, (BitVec.sub_add_cancel (L.thread i).args 80#32).symm, ?_, hv.kcontextStart⟩
    · intro r hr
      have hreg := REGS_lt r hr
      rw [gpr_eq _ hreg, hword _ (by bv_omega), fresh_gpr L _ hr]
    · rw [field_epc, hword 18 (by decide)]
      rfl
  constructor
  · rw [hslot]
    omega
  · rw [hslot]
    exact hin
  · rw [hslot]
    exact hsaved

end Prepare

/-- The first instructions of a new thread call `thread_start` with its arguments. -/
theorem run_kcontextStart (hv : L.Valid) {t : Thread} {h : Hart}
    (hx : ∀ r : Reg, r ≠ 0#5 → r < 16#5 → h.x r = (t.fresh L).x r) :
    ∃ h' : Hart, h.run amKcontextStart = some h' ∧ h'.pc = L.threadStart ∧ h'.x a0 = t.args ∧
      h'.x sp = t.args ∧ h'.mem = h.mem := by
  have hs0 : h.x s0 = t.args := hx s0 (by decide) (by decide)
  have hs1 : h.x s1 = L.threadStart := hx s1 (by decide) (by decide)
  have hsp : h.x sp = t.args := hx sp (by decide) (by decide)
  have htarget : ((h.setX a0 (h.x s0)).x s1 + (0#12).signExtend 32) &&& ~~~1#32 =
      L.threadStart := by
    have h0 : L.threadStart + (0#12).signExtend 32 = L.threadStart := BitVec.add_zero _
    rw [Hart.setX_of_ne _ _ _ (by decide), hs1, h0, ← and_not_three hv.threadStart,
      BitVec.and_assoc]
    rfl
  rw [amKcontextStart, Hart.run_mv _ _ _ (by decide),
    Hart.run_jalr _ _ _ (by decide) htarget hv.threadStart]
  refine ⟨_, rfl, rfl, ?_, ?_, rfl⟩
  · rw [Hart.setX_of_ne _ _ _ (by decide), Hart.setX_self, hs0]
  · rw [Hart.setX_of_ne _ _ _ (by decide), Hart.setX_of_ne _ _ _ (by decide), hsp]

/-! ## Runs -/

/-- What happened in a run: a thread was prepared, or the running code, at its
`ecall` in the state `site`, gave way to `dst`, which continued in `resumed`. -/
inductive Act (ι : Type) where
  | prepare (i : ι)
  | switch (src : Option ι) (site : Hart) (dst : ι) (resumed : Hart)

/-- The running thread after the acts, the last one first. -/
def running : List (Act ι) → Option ι
  | [] => none
  | .prepare _ :: es => running es
  | .switch _ _ dst _ :: _ => some dst

/-- A prepared thread that is not running. -/
def Suspended (es : List (Act ι)) (i : ι) : Prop := Act.prepare i ∈ es ∧ running es ≠ some i

/-- What the running code may do between two switches. -/
structure Works (L : Layout ι) (es : List (Act ι)) (h h' : Hart) : Prop where
  x0 : h'.x 0#5 = 0#32
  mtvec : h'.csrs.mtvec = h.csrs.mtvec
  stack : ∀ i, Suspended es i → Keeps L (.stack i) h.mem h'.mem
  slot : ∀ i, Suspended es i → Keeps L (.slot i) h.mem h'.mem

/-- The `ecall` of the switch to `j`: `rt_hw_context_switch_to` in the boot code,
`rt_hw_context_switch` with its own slot in a thread. -/
def switchSite (L : Layout ι) (who : Option ι) (junk : Junk) (h : Hart) (j : ι) : Hart :=
  match who with
  | none => rtHwContextSwitchTo L L.bootStack junk h (L.thread j).slot
  | some i => rtHwContextSwitch L (L.thread i).stack junk h (L.thread i).slot (L.thread j).slot

/-- The running code calls for a switch to `j`, a suspended thread or itself. -/
structure Switches (L : Layout ι) (es : List (Act ι)) (h site : Hart) (j : ι) : Prop where
  call : ∃ junk, site = switchSite L (running es) junk h j
  onStack : OnStack (L.place (own (running es))) site
  target : Suspended es j ∨ running es = some j

inductive Run (L : Layout ι) : List (Act ι) → Hart → Prop where
  | boot (h : Hart) (h0 : h.x 0#5 = 0#32) : Run L [] (amCteInit L h)
  | work {es : List (Act ι)} {h h' : Hart} : Run L es h → Works L es h h' → Run L es h'
  | prepare {es : List (Act ι)} {h : Hart} (i : ι) : Run L es h → Act.prepare i ∉ es →
    Run L (.prepare i :: es) { h with mem := threadInit L h.mem (L.thread i) }
  | switch {es : List (Act ι)} {h site h' : Hart} {j : ι} (junk : Junk) : Run L es h →
    Switches L es h site j → ecall L (L.place (own (running es))) junk site = some h' →
    Run L (.switch (running es) site j h' :: es) h'

/-- The state in which thread `i` made its last `ecall`, if it has run. -/
def lastEcall [DecidableEq ι] (i : ι) : List (Act ι) → Option Hart
  | [] => none
  | .prepare _ :: es => lastEcall i es
  | .switch src site _ _ :: es => if src = some i then some site else lastEcall i es

/-- The context of a thread that made its last `ecall` in `last`. -/
def Thread.context (L : Layout ι) (t : Thread) (last : Option Hart) : Snapshot :=
  match last with
  | none => t.fresh L
  | some site => stopped site

/-- Thread `t` goes on in `h`: after its last `ecall` with the registers it had
there, or, if it is new, into `thread_start` with its arguments. -/
def Thread.Continues (L : Layout ι) (t : Thread) (last : Option Hart) (h : Hart) : Prop :=
  match last with
  | some site => h.pc = site.pc + 4#32 ∧ ∀ r : Reg, r ≠ 0#5 → r < 16#5 → h.x r = site.x r
  | none => h.pc = L.kcontextStart ∧ ∃ h', h.run amKcontextStart = some h' ∧
    h'.pc = L.threadStart ∧ h'.x a0 = t.args ∧ h'.x sp = t.args ∧ t.ArgsIn h'.mem

section Site
variable (hv : L.Valid) (who : Option ι) (junk : Junk) (h : Hart) (j : ι)

theorem yieldSite_eq (stack : Span) (m : Memory) :
    yieldSite stack junk h m =
      Hart.setX ⟨Function.update junk.x 0#5 0#32, junk.pc, h.csrs, overwrite stack junk.mem m⟩ a5
        (-1#32) := by
  have hneg : 0#32 + (-1#12).signExtend 32 = -1#32 := by decide
  rw [yieldSite, li, Hart.step_addi _ _ _ (by decide)]
  simp only [Function.update_self, hneg]

theorem switchSite_eq : switchSite L who junk h j =
    yieldSite (L.place (own who)) junk h
      (storeWord (storeWord h.mem L.switchFrom (source L who)) L.switchTo (L.thread j).slot) := by
  cases who <;> rfl

theorem switchSite_a5 : (switchSite L who junk h j).x a5 = -1#32 := by
  rw [switchSite_eq, yieldSite_eq, Hart.setX_self]

theorem switchSite_sp : (switchSite L who junk h j).x sp = junk.x sp := by
  rw [switchSite_eq, yieldSite_eq, Hart.setX_of_ne _ _ _ (by decide)]
  exact Function.update_of_ne (by decide : sp ≠ 0#5) 0#32 junk.x

theorem switchSite_pc : (switchSite L who junk h j).pc = junk.pc + 4#32 := by
  rw [switchSite_eq, yieldSite_eq, Hart.setX]

theorem switchSite_csrs : (switchSite L who junk h j).csrs = h.csrs := by
  rw [switchSite_eq, yieldSite_eq, Hart.setX_csrs]

theorem switchSite_mem : (switchSite L who junk h j).mem = overwrite (L.place (own who)) junk.mem
    (storeWord (storeWord h.mem L.switchFrom (source L who)) L.switchTo (L.thread j).slot) := by
  rw [switchSite_eq, yieldSite_eq, Hart.setX_mem]

include hv

theorem switchSite_switchTo :
    loadWord (switchSite L who junk h j).mem L.switchTo = (L.thread j).slot := by
  rw [switchSite_mem, Same.loadWord_eq (overwrite_same _ _
    (hv.apart .switchTo (own who) (global_ne_own who (.inr rfl)))) (.refl _) (hv.below .switchTo),
    loadWord_storeWord]

theorem switchSite_switchFrom :
    loadWord (switchSite L who junk h j).mem L.switchFrom = source L who := by
  rw [switchSite_mem, Same.loadWord_eq (overwrite_same _ _
    (hv.apart .switchFrom (own who) (global_ne_own who (.inl rfl)))) (.refl _)
    (hv.below .switchFrom),
    (keeps_storeWord hv _ _ (o := .switchFrom) (p := .switchTo) (.refl _)
      (by rintro ⟨⟩)).loadWord_eq hv (.refl _), loadWord_storeWord]

theorem switchSite_keeps {o : Object ι} (hown : o ≠ own who) (hfrom : o ≠ .switchFrom)
    (hto : o ≠ .switchTo) : Keeps L o h.mem (switchSite L who junk h j).mem := by
  rw [switchSite_mem]
  apply Same.trans (keeps_storeWord hv _ _ (p := .switchFrom) (.refl _) hfrom)
  apply Same.trans (keeps_storeWord hv _ _ (p := .switchTo) (.refl _) hto)
  exact overwrite_same _ _ (hv.apart o _ hown)

end Site

/-! ## The invariant -/

/-- What holds in every state of a run. -/
structure Inv [DecidableEq ι] (L : Layout ι) (es : List (Act ι)) (h : Hart) : Prop where
  x0 : h.x 0#5 = 0#32
  mtvec : h.csrs.mtvec = L.asmTrap
  running : ∀ i, running es = some i → Act.prepare i ∈ es
  ran : ∀ i, lastEcall i es ≠ none → Act.prepare i ∈ es
  held : ∀ i, Suspended es i → Held L h.mem i ((L.thread i).context L (lastEcall i es))
  args : ∀ i, Suspended es i → lastEcall i es = none → (L.thread i).ArgsIn h.mem

theorem Thread.ArgsIn.keeps (hv : L.Valid) {i : ι} {m m' : Memory}
    (h : (L.thread i).ArgsIn m) (hk : Keeps L (.stack i) m m') : (L.thread i).ArgsIn m' := by
  have hle := args_le hv i
  have hword : ∀ k, 4 * k + 4 ≤ 12 → loadWord m' (word (L.thread i).args k) =
      loadWord m (word (L.thread i).args k) :=
    fun k hk' => loadWord_word_same hle hk' (hk.mono (args_within hv i))
  have h0 := hword 0 (by decide)
  have hzero : word (L.thread i).args 0 = (L.thread i).args := BitVec.add_zero _
  rw [hzero] at h0
  exact ⟨h0.trans h.tentry, (hword 1 (by decide)).trans h.parameter,
    (hword 2 (by decide)).trans h.texit⟩

section Steps
variable [DecidableEq ι] (hv : L.Valid) {es : List (Act ι)} {h h' : Hart}
include hv

theorem Inv.boot (h0 : h.x 0#5 = 0#32) : Inv L [] (amCteInit L h) where
  x0 := h0
  mtvec := and_not_three hv.asmTrap
  running i hi := by cases hi
  ran i hi := absurd rfl hi
  held i hi := by cases hi.1
  args i hi := by cases hi.1

theorem Inv.work (hi : Inv L es h) (hw : Works L es h h') : Inv L es h' where
  x0 := hw.x0
  mtvec := hw.mtvec.trans hi.mtvec
  running := hi.running
  ran := hi.ran
  held i hs := (hi.held i hs).keeps hv (hw.stack i hs) (hw.slot i hs)
  args i hs hn := (hi.args i hs hn).keeps hv (hw.stack i hs)

theorem Inv.prepare (hi : Inv L es h) {i : ι} (hnew : Act.prepare i ∉ es) :
    Inv L (.prepare i :: es) { h with mem := threadInit L h.mem (L.thread i) } := by
  have hlast : lastEcall i es = none := by
    by_contra hn
    exact hnew (hi.ran i hn)
  -- The other threads were prepared before.
  have hold : ∀ k, Suspended (.prepare i :: es) k → k ≠ i → Suspended es k := by
    intro k hk hne
    refine ⟨(List.mem_cons.mp hk.1).resolve_left ?_, hk.2⟩
    rintro ⟨⟩
    exact hne rfl
  have hkeep : ∀ k, k ≠ i → Keeps L (.stack k) h.mem (threadInit L h.mem (L.thread i)) ∧
      Keeps L (.slot k) h.mem (threadInit L h.mem (L.thread i)) := by
    intro k hne
    constructor
    · exact threadInit_keeps hv i h.mem (by rintro ⟨⟩; exact hne rfl) (by rintro ⟨⟩)
    · exact threadInit_keeps hv i h.mem (by rintro ⟨⟩) (by rintro ⟨⟩; exact hne rfl)
  refine ⟨hi.x0, hi.mtvec, ?_, ?_, ?_, ?_⟩
  · intro k hk
    exact List.mem_cons_of_mem _ (hi.running k hk)
  · intro k hk
    exact List.mem_cons_of_mem _ (hi.ran k hk)
  · intro k hk
    by_cases hne : k = i
    · subst hne
      have hfresh := threadInit_held hv k h.mem
      rw [lastEcall, hlast]
      exact hfresh
    · exact (hi.held k (hold k hk hne)).keeps hv (hkeep k hne).1 (hkeep k hne).2
  · intro k hk hn
    by_cases hne : k = i
    · subst hne
      exact threadInit_argsIn hv k h.mem
    · exact (hi.args k (hold k hk hne) hn).keeps hv (hkeep k hne).1

omit hv in
theorem Switches.mtvec {site : Hart} {j : ι} (hi : Inv L es h) (hs : Switches L es h site j) :
    site.csrs.mtvec = L.asmTrap := by
  obtain ⟨junk, hsite⟩ := hs.call
  rw [hsite, switchSite_csrs, hi.mtvec]

/-- The switch to `j` does not touch the other threads. -/
theorem Switches.keeps {site : Hart} {j : ι} (hi : Inv L es h) (hs : Switches L es h site j)
    (junk : Junk) {k : ι} (hk : running es ≠ some k) :
    Keeps L (.stack k) h.mem (switchedMemory L (running es) junk site) ∧
      Keeps L (.slot k) h.mem (switchedMemory L (running es) junk site) := by
  obtain ⟨junk', hsite⟩ := hs.call
  have htvec := hs.mtvec hi
  have hown : Object.stack k ≠ own (running es) := by
    intro heq
    cases hr : running es with
    | none =>
      rw [hr] at heq
      cases heq
    | some i =>
      rw [hr] at heq
      cases heq
      exact hk hr
  have hslot : ∀ i ∈ running es, Object.slot k ≠ .slot i := by
    rintro i hi' ⟨⟩
    exact hk hi'
  constructor
  · have hcall := switchSite_keeps hv (running es) junk' h j hown (by rintro ⟨⟩) (by rintro ⟨⟩)
    rw [← hsite] at hcall
    apply Same.trans hcall
    exact switchedMemory_keeps hv hs.onStack htvec junk hown (by rintro i - ⟨⟩) (by rintro ⟨⟩)
      (by rintro ⟨⟩)
  · have hcall := switchSite_keeps hv (running es) junk' h j (slot_ne_own _ k) (by rintro ⟨⟩)
      (by rintro ⟨⟩)
    rw [← hsite] at hcall
    apply Same.trans hcall
    exact switchedMemory_keeps hv hs.onStack htvec junk (slot_ne_own _ k) hslot (by rintro ⟨⟩)
      (by rintro ⟨⟩)

/-- When the handler has returned, every thread that is not running has its
context, the one that called for the switch included. -/
theorem Switches.held {site : Hart} {j : ι} (hi : Inv L es h) (hs : Switches L es h site j)
    (junk : Junk) (h' : Hart) {k : ι} (hk : Suspended es k ∨ running es = some k) :
    Held L (switchedMemory L (running es) junk site) k ((L.thread k).context L
      (lastEcall k (.switch (running es) site j h' :: es))) := by
  rw [lastEcall]
  split
  · rename_i hr
    exact switchedMemory_held hv hs.onStack (hs.mtvec hi) junk hr
  · rename_i hr
    have hsus := hk.resolve_right hr
    have hkeep := hs.keeps hv hi junk hr
    exact (hi.held k hsus).keeps hv hkeep.1 hkeep.2

theorem Switches.args {site : Hart} {j : ι} (hi : Inv L es h) (hs : Switches L es h site j)
    (junk : Junk) (h' : Hart) {k : ι} (hk : Suspended es k ∨ running es = some k)
    (hn : lastEcall k (.switch (running es) site j h' :: es) = none) :
    (L.thread k).ArgsIn (switchedMemory L (running es) junk site) := by
  rw [lastEcall] at hn
  split at hn
  · cases hn
  · rename_i hr
    exact (hi.args k (hk.resolve_right hr) hn).keeps hv (hs.keeps hv hi junk hr).1

/-- The switch completes, and the thread it is to goes on where it stopped. -/
theorem Switches.continues {site : Hart} {j : ι} (hi : Inv L es h) (hs : Switches L es h site j)
    (junk : Junk) : ∃ h', ecall L (L.place (own (running es))) junk site = some h' ∧
      (L.thread j).Continues L (lastEcall j (.switch (running es) site j h' :: es)) h' ∧
      h'.x 0#5 = 0#32 ∧ h'.csrs.mtvec = L.asmTrap ∧
      h'.mem = switchedMemory L (running es) junk site := by
  obtain ⟨junk', hsite⟩ := hs.call
  have ha5 : site.x a5 = -1#32 := by
    rw [hsite, switchSite_a5]
  have hfrom : loadWord site.mem L.switchFrom = source L (running es) := by
    rw [hsite, switchSite_switchFrom hv]
  have hto : loadWord site.mem L.switchTo = (L.thread j).slot := by
    rw [hsite, switchSite_switchTo hv]
  have hheld := hs.held hv hi junk h hs.target
  obtain ⟨h', hecall, hpc, hx, hx0, hmem, htvec'⟩ :=
    ecall_resumes hv hs.onStack (hs.mtvec hi) junk ha5 hfrom hto hheld
  refine ⟨h', hecall, ?_, hx0, htvec', hmem⟩
  have hargs := hs.args hv hi junk h' hs.target
  have hlast : lastEcall j (.switch (running es) site j h' :: es) =
      lastEcall j (.switch (running es) site j h :: es) := rfl
  rw [← hlast] at hpc hx
  cases hl : lastEcall j (.switch (running es) site j h' :: es) with
  | some site' =>
    rw [hl] at hpc hx
    exact ⟨hpc, hx⟩
  | none =>
    rw [hl] at hpc hx
    obtain ⟨h'', hrun, hpc', ha0, hsp, hmem'⟩ := run_kcontextStart hv hx
    refine ⟨hpc, h'', hrun, hpc', ha0, hsp, ?_⟩
    rw [hmem', hmem]
    exact hargs hl

theorem Inv.switch {site : Hart} {j : ι} (hi : Inv L es h) (hs : Switches L es h site j)
    (junk : Junk) (hx0 : h'.x 0#5 = 0#32) (htvec : h'.csrs.mtvec = L.asmTrap)
    (hmem : h'.mem = switchedMemory L (Am.running es) junk site) :
    Inv L (.switch (Am.running es) site j h' :: es) h' := by
  -- A thread suspended now was suspended before or has called for the switch.
  have hold : ∀ k, Suspended (.switch (Am.running es) site j h' :: es) k →
      Suspended es k ∨ Am.running es = some k := by
    intro k hk
    by_cases hr : Am.running es = some k
    · exact .inr hr
    · refine .inl ⟨(List.mem_cons.mp hk.1).resolve_left ?_, hr⟩
      rintro ⟨⟩
  refine ⟨hx0, htvec, ?_, ?_, ?_, ?_⟩
  · rintro k ⟨⟩
    apply List.mem_cons_of_mem
    rcases hs.target with hsus | hr
    · exact hsus.1
    · exact hi.running j hr
  · intro k hk
    apply List.mem_cons_of_mem
    rw [lastEcall] at hk
    split at hk
    · rename_i hr
      exact hi.running k hr
    · exact hi.ran k hk
  · intro k hk
    rw [hmem]
    exact hs.held hv hi junk h' (hold k hk)
  · intro k hk hn
    rw [hmem]
    exact hs.args hv hi junk h' (hold k hk) hn

theorem Run.inv (hr : Run L es h) : Inv L es h := by
  induction hr with
  | boot h h0 => exact Inv.boot hv h0
  | work hr hw ih => exact ih.work hv hw
  | prepare i hr hnew ih => exact ih.prepare hv hnew
  | switch junk hr hs he ih =>
    obtain ⟨h', he', -, hx0, htvec, hmem⟩ := hs.continues hv ih junk
    obtain rfl := Option.some.inj (he.symm.trans he')
    exact ih.switch hv hs junk hx0 htvec hmem

end Steps

/-! ## Every thread is resumed as it stopped -/

theorem Run.continues [DecidableEq ι] (hv : L.Valid) {es : List (Act ι)} {h : Hart}
    (hr : Run L es h) {pre post : List (Act ι)} {src : Option ι} {site resumed : Hart} {dst : ι}
    (hes : es = post ++ .switch src site dst resumed :: pre) :
    (L.thread dst).Continues L (lastEcall dst (.switch src site dst resumed :: pre)) resumed := by
  induction hr generalizing post with
  | boot h h0 => exact absurd hes (by simp)
  | work hr hw ih => exact ih hes
  | prepare i hr hnew ih =>
    cases post with
    | nil => cases hes
    | cons e post =>
      cases hes
      exact ih rfl
  | switch junk hr hs he ih =>
    cases post with
    | nil =>
      cases hes
      obtain ⟨h', he', hcont, -⟩ := hs.continues hv (hr.inv hv) junk
      obtain rfl := Option.some.inj (he.symm.trans he')
      exact hcont
    | cons e post =>
      cases hes
      exact ih rfl

/-- From every state of a run the running code can switch, if its stack has room. -/
theorem Run.exists_switch [DecidableEq ι] (hv : L.Valid) {es : List (Act ι)} {h : Hart}
    {j : ι} (hr : Run L es h) (who : Option ι) (hw : running es = who)
    (ht : Suspended es j ∨ running es = some j) {v : BitVec 32} (hal : v.toNat % 4 = 0)
    (hlo : (L.place (own who)).lo + 80 ≤ v.toNat) (hhi : v.toNat ≤ (L.place (own who)).hi) :
    ∃ site h', Run L (.switch who site j h' :: es) h' := by
  subst hw
  have hs : Switches L es h
      (switchSite L (running es) ⟨fun _ => v, 0#32, h.mem⟩ h j) j := by
    refine ⟨⟨_, rfl⟩, ⟨?_, ?_, ?_, ?_⟩, ht⟩
    · rw [switchSite_sp]
      exact hal
    · rw [switchSite_sp]
      exact hlo
    · rw [switchSite_sp]
      exact hhi
    · rw [switchSite_pc]
      simp only [BitVec.zero_add]
      decide
  obtain ⟨h', he, -⟩ := hs.continues hv (hr.inv hv) ⟨h.x, h.pc, h.mem⟩
  exact ⟨_, h', hr.switch _ hs he⟩

/-- In every state of every run: each switch has resumed its thread where that
thread stopped, or as a new one; each suspended thread has its context in its own
stack, apart from the others; and each switch called for completes. -/
theorem switching_preserves_contexts [DecidableEq ι] (hv : L.Valid) {es : List (Act ι)} {h : Hart}
    (hr : Run L es h) :
    (∀ pre post src site dst resumed, es = post ++ .switch src site dst resumed :: pre →
      (L.thread dst).Continues L (lastEcall dst (.switch src site dst resumed :: pre)) resumed) ∧
    (∀ i, Suspended es i → Held L h.mem i ((L.thread i).context L (lastEcall i es))) ∧
    (∀ i k, Suspended es i → Suspended es k → i ≠ k →
      (Span.block (loadWord h.mem (L.thread i).slot) CONTEXT_SIZE).Apart
        (.block (loadWord h.mem (L.thread k).slot) CONTEXT_SIZE)) ∧
    (∀ site j junk, Switches L es h site j →
      ∃ h', ecall L (L.place (own (running es))) junk site = some h') := by
  have hi := hr.inv hv
  refine ⟨?_, hi.held, ?_, ?_⟩
  · intro pre post src site dst resumed hes
    exact hr.continues hv hes
  · intro i k hsi hsk hne
    have hap := hv.apart (.stack i) (.stack k) (by rintro ⟨⟩; exact hne rfl)
    exact hap.mono (hi.held i hsi).within (hi.held k hsk).within
  · intro site j junk hs
    obtain ⟨h', he, -⟩ := hs.continues hv hi junk
    exact ⟨h', he⟩

/-! ## Two threads -/

/-- Two threads with a page of stack each, above the page of the boot code. -/
def twoThreads : Layout Bool where
  thread i :=
    if i then ⟨⟨0x3000, 0x4000⟩, 0x4004#32, 0x80002000#32, 2#32, 0x3ffc#32, 0x80003000#32⟩
    else ⟨⟨0x2000, 0x3000⟩, 0x4000#32, 0x80001000#32, 1#32, 0x2ffc#32, 0x80003000#32⟩
  bootStack := ⟨0x1000, 0x2000⟩
  switchFrom := 0x4008#32
  switchTo := 0x400c#32
  asmTrap := 0x80000100#32
  kcontextStart := 0x80000080#32
  threadStart := 0x80000200#32

theorem twoThreads_valid : twoThreads.Valid where
  apart := by
    rintro (_ | (_ | _) | (_ | _) | _ | _) (_ | (_ | _) | (_ | _) | _ | _) hne
    all_goals first
      | exact absurd rfl hne
      | decide
  nonnull := by rintro (_ | (_ | _) | (_ | _) | _ | _) <;> decide
  below := by rintro (_ | (_ | _) | (_ | _) | _ | _) <;> decide
  asmTrap := by decide
  asmTrapNonnull := by decide
  kcontextStart := by decide
  threadStart := by decide
  room := by decide
  inside := by decide

/-- Thread `false` runs, gives way to the new thread `true`, and is resumed. -/
theorem twoThreads_resumed : ∃ (es : List (Act Bool)) (h site : Hart), Run twoThreads es h ∧
    running es = some false ∧ lastEcall false es = some site ∧ h.pc = site.pc + 4#32 ∧
    ∀ r : Reg, r ≠ 0#5 → r < 16#5 → h.x r = site.x r := by
  have hv := twoThreads_valid
  have hboot := Run.boot (L := twoThreads)
    ⟨fun _ => 0#32, 0#32, ⟨0#32, 0#32, 0#32⟩, fun _ => 0#8⟩ rfl
  have hready := (hboot.prepare false (by simp)).prepare true (by simp)
  obtain ⟨_, _, hfirst⟩ := hready.exists_switch hv (j := false) (v := 0x1800#32) none rfl
    (.inl ⟨by simp, by simp [running]⟩) (by decide) (by decide) (by decide)
  obtain ⟨_, _, haway⟩ := hfirst.exists_switch hv (j := true) (v := 0x2800#32) (some false) rfl
    (.inl ⟨by simp, by simp [running]⟩) (by decide) (by decide) (by decide)
  obtain ⟨_, h, hback⟩ := haway.exists_switch hv (j := false) (v := 0x3800#32) (some true) rfl
    (.inl ⟨by simp, by simp [running]⟩) (by decide) (by decide) (by decide)
  have hcont := (switching_preserves_contexts hv hback).1 _ [] _ _ _ _ rfl
  exact ⟨_, h, _, hback, rfl, rfl, hcont.1, hcont.2⟩

end Am
