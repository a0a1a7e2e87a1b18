import AiOsoc.Am.Trap

/-!
# One switch

From the `ecall` of `rt_hw_context_switch` to the `mret` of its handler: the
context of the caller is in its slot, the others are untouched, and the hart has
the registers of the context it was switched to.
-/

namespace Am

set_option autoImplicit false

open Rv32e ByteMemory

variable {ι : Type} {L : Layout ι}

/-! ## Where things are -/

/-- The stack of the running code: that of a thread, or of the boot code. -/
def own : Option ι → Object ι
  | none => .bootStack
  | some i => .stack i

/-- The `from` of a switch. The boot code is not saved. -/
def source (L : Layout ι) : Option ι → BitVec 32
  | none => 0#32
  | some i => (L.thread i).slot

/-- The slot of thread `i` points to a context in its own stack, which holds `s`. -/
structure Held (L : Layout ι) (m : Memory) (i : ι) (s : Snapshot) : Prop where
  aligned : (loadWord m (L.thread i).slot).toNat % 4 = 0
  within : (Span.block (loadWord m (L.thread i).slot) 80).Within (L.thread i).stack
  saved : Saved m (loadWord m (L.thread i).slot) s

/-- An operation leaves an object as it was. -/
def Keeps (L : Layout ι) (o : Object ι) (m m' : Memory) : Prop := Same (L.place o) m m'

theorem global_ne_own (who : Option ι) {o : Object ι} (ho : o = .switchFrom ∨ o = .switchTo) :
    o ≠ own who := by
  rcases ho with rfl | rfl <;> cases who <;> rintro ⟨⟩

theorem slot_ne_own (who : Option ι) (i : ι) : Object.slot i ≠ own who := by
  cases who <;> rintro ⟨⟩

section Places
variable (hv : L.Valid)
include hv

theorem slot_ne (i : ι) : (L.thread i).slot ≠ 0#32 := by
  intro h
  have hpos : 0 < (L.thread i).slot.toNat := hv.nonnull (.slot i)
  rw [h] at hpos
  exact absurd hpos (by decide)

/-- A context in a stack is no null pointer and does not wrap around. -/
theorem context_bounds {o : Object ι} {c : BitVec 32} (hc : (Span.block c 80).Within (L.place o)) :
    0 < c.toNat ∧ c.toNat + 80 ≤ 2 ^ 32 := by
  have hlo := hv.nonnull o
  have hhi := hv.below o
  rw [Span.block_within] at hc
  omega

/-- A store to one object keeps the others. -/
theorem keeps_storeWord {o p : Object ι} {a : BitVec 32} (v : BitVec 32) (m : Memory)
    (ha : (Span.block a 4).Within (L.place p)) (hne : o ≠ p) : Keeps L o m (storeWord m a v) := by
  have hhi := hv.below p
  have hs : (L.place o).Apart (.block a 4) := (hv.apart o p hne).mono (.refl _) ha
  apply storeWord_same v hs
  rw [Span.block_within] at ha
  omega

theorem Keeps.loadWord_eq {o : Object ι} {a : BitVec 32} {m m' : Memory} (h : Keeps L o m m')
    (ha : (Span.block a 4).Within (L.place o)) : loadWord m' a = loadWord m a :=
  Same.loadWord_eq h ha (hv.below o)

theorem Held.keeps {m m' : Memory} {i : ι} {s : Snapshot} (h : Held L m i s)
    (hstack : Keeps L (.stack i) m m') (hslot : Keeps L (.slot i) m m') : Held L m' i s := by
  have hload : loadWord m' (L.thread i).slot = loadWord m (L.thread i).slot :=
    hslot.loadWord_eq hv (.refl _)
  have hsaved := h.saved.same (context_bounds hv (o := .stack i) h.within).2
    (hstack.mono h.within)
  constructor
  · rw [hload]
    exact h.aligned
  · rw [hload]
    exact h.within
  · rw [hload]
    exact hsaved

end Places

/-! ## The handler -/

/-- `*switch_from = c`. -/
def saveSource (L : Layout ι) (who : Option ι) (c : BitVec 32) (m : Memory) : Memory :=
  match who with
  | none => m
  | some i => storeWord m (L.thread i).slot c

/-- The memory that `__am_irq_handle` leaves after a yield. -/
def handledMemory (L : Layout ι) (who : Option ι) (c : BitVec 32) (m : Memory) : Memory :=
  let m := storeWord m (field c OFFSET_EPC) (loadWord m (field c OFFSET_EPC) + 4#32)
  let m := saveSource L who c m
  let m := storeWord m L.switchFrom 0#32
  storeWord m L.switchTo 0#32

theorem saveSource_keeps (hv : L.Valid) {who : Option ι} (c : BitVec 32) (m : Memory)
    {o : Object ι} (hslot : ∀ i ∈ who, o ≠ .slot i) : Keeps L o m (saveSource L who c m) := by
  cases who with
  | none => exact Same.refl
  | some i => exact keeps_storeWord hv c m (p := .slot i) (.refl _) (hslot i rfl)

theorem evHandler_yield (hv : L.Valid) {who : Option ι} {j : ι} (c : BitVec 32) {m : Memory}
    (hfrom : loadWord m L.switchFrom = source L who)
    (hto : loadWord m L.switchTo = (L.thread j).slot) :
    evHandler L .yield m c =
      some (storeWord (storeWord (saveSource L who c m) L.switchFrom 0#32) L.switchTo 0#32,
        loadWord (saveSource L who c m) (L.thread j).slot) := by
  have hsave : (if loadWord m L.switchFrom ≠ 0#32 then storeWord m (loadWord m L.switchFrom) c
      else m) = saveSource L who c m := by
    rw [hfrom]
    cases who with
    | none => rfl
    | some i => exact if_pos (slot_ne hv i)
  have hto' : loadWord (saveSource L who c m) L.switchTo = (L.thread j).slot := by
    rw [(saveSource_keeps hv c m (o := .switchTo) (by rintro i - ⟨⟩)).loadWord_eq hv (.refl _), hto]
  simp only [evHandler, hsave, hto', if_pos (slot_ne hv j)]

section Handler
variable (hv : L.Valid) {who : Option ι} {c : BitVec 32} {m : Memory}
  (hc : (Span.block c 80).Within (L.place (own who)))
include hv hc

theorem epc_within : (Span.block (field c OFFSET_EPC) 4).Within (L.place (own who)) :=
  (word_within (context_bounds hv hc).2 (by decide : 4 * 18 + 4 ≤ 80)).trans hc

theorem handledMemory_keeps {o : Object ι} (hown : o ≠ own who) (hslot : ∀ i ∈ who, o ≠ .slot i)
    (hfrom : o ≠ .switchFrom) (hto : o ≠ .switchTo) : Keeps L o m (handledMemory L who c m) := by
  apply Same.trans (keeps_storeWord hv _ m (epc_within hv hc) hown)
  apply Same.trans (saveSource_keeps hv c _ hslot)
  apply Same.trans (keeps_storeWord hv 0#32 _ (p := .switchFrom) (.refl _) hfrom)
  exact keeps_storeWord hv 0#32 _ (p := .switchTo) (.refl _) hto

/-- In the caller's stack the handler only moves the stored `mepc`. -/
theorem handledMemory_word {k : Nat} (hk : 4 * k + 4 ≤ 80) :
    loadWord (handledMemory L who c m) (word c k) =
      if 18 = k then loadWord m (word c 18) + 4#32 else loadWord m (word c k) := by
  have hlt := (context_bounds hv hc).2
  have hkeep : Keeps L (own who) (storeWord m (word c 18) (loadWord m (word c 18) + 4#32))
      (handledMemory L who c m) := by
    apply Same.trans (saveSource_keeps hv c _ fun i _ => (slot_ne_own who i).symm)
    apply Same.trans (keeps_storeWord hv 0#32 _ (p := .switchFrom) (.refl _)
      (global_ne_own who (.inl rfl)).symm)
    exact keeps_storeWord hv 0#32 _ (p := .switchTo) (.refl _)
      (global_ne_own who (.inr rfl)).symm
  rw [loadWord_word_same hlt hk (hkeep.mono hc), loadWord_word hlt hk (by decide)]

/-- The caller's slot has its context. -/
theorem handledMemory_slot {i : ι} (hi : who = some i) :
    loadWord (handledMemory L who c m) (L.thread i).slot = c := by
  subst hi
  rw [handledMemory,
    (keeps_storeWord hv _ _ (o := .slot i) (p := .switchTo) (.refl _) (by rintro ⟨⟩)).loadWord_eq hv
      (.refl _),
    (keeps_storeWord hv _ _ (o := .slot i) (p := .switchFrom) (.refl _)
      (by rintro ⟨⟩)).loadWord_eq hv (.refl _), saveSource, loadWord_storeWord]

variable {j : ι} (hcause : loadWord m (field c OFFSET_CAUSE) = 11#32)
  (ha5 : loadWord m (gpr c a5) = -1#32) (hfrom : loadWord m L.switchFrom = source L who)
  (hto : loadWord m L.switchTo = (L.thread j).slot)
include hcause ha5 hfrom hto

/-- A yield: `__am_irq_handle` returns what the slot of `to` holds. -/
theorem amIrqHandle_yield
    (hnz : loadWord (handledMemory L who c m) (L.thread j).slot ≠ 0#32) :
    amIrqHandle (some (evHandler L)) m c =
      some (handledMemory L who c m, loadWord (handledMemory L who c m) (L.thread j).slot) := by
  have hepc := epc_within hv hc
  have hkeep : ∀ o : Object ι, (o = .switchFrom ∨ o = .switchTo) → Keeps L o m
      (storeWord m (field c OFFSET_EPC) (loadWord m (field c OFFSET_EPC) + 4#32)) :=
    fun o ho => keeps_storeWord hv _ m hepc (global_ne_own who ho)
  have hfrom' := ((hkeep .switchFrom (.inl rfl)).loadWord_eq hv (.refl _)).trans hfrom
  have hto' := ((hkeep .switchTo (.inr rfl)).loadWord_eq hv (.refl _)).trans hto
  -- Clearing the two globals does not touch the slot that has been read.
  have hslot : loadWord (handledMemory L who c m) (L.thread j).slot =
      loadWord (saveSource L who c (storeWord m (field c OFFSET_EPC)
        (loadWord m (field c OFFSET_EPC) + 4#32))) (L.thread j).slot := by
    have hclear := Same.trans
      (keeps_storeWord hv 0#32 (saveSource L who c (storeWord m (field c OFFSET_EPC)
        (loadWord m (field c OFFSET_EPC) + 4#32))) (o := .slot j) (p := .switchFrom) (.refl _)
        (by rintro ⟨⟩))
      (keeps_storeWord hv 0#32 _ (p := .switchTo) (.refl _) (by rintro ⟨⟩))
    exact Keeps.loadWord_eq hv hclear (.refl _)
  simp only [amIrqHandle, hcause, ha5, if_pos, evHandler_yield hv c hfrom' hto',
    Option.bind_eq_bind, Option.bind_some]
  rw [← hslot, if_pos hnz]
  rfl

end Handler

/-! ## From `ecall` to `mret` -/

/-- Where the `ecall` of `yield` finds the hart: with its stack pointer in the
stack, as the calling convention keeps it, and room for a context below. -/
structure OnStack (stack : Span) (site : Hart) : Prop where
  aligned : (site.x sp).toNat % 4 = 0
  room : stack.lo + 80 ≤ (site.x sp).toNat
  top : (site.x sp).toNat ≤ stack.hi
  pc : site.pc.toNat % 4 = 0

/-- Where the trap entry puts the context. -/
def contextOf (site : Hart) : BitVec 32 := site.x sp - 80#32

/-- The memory when `__am_irq_handle` has returned. -/
def switchedMemory (L : Layout ι) (who : Option ι) (junk : Junk) (site : Hart) : Memory :=
  overwrite ⟨(L.place (own who)).lo, (contextOf site).toNat⟩ junk.mem
    (handledMemory L who (contextOf site) (savedMemory (site.step .ecall) (contextOf site)))

theorem step_ecall (hv : L.Valid) {h : Hart} (htvec : h.csrs.mtvec = L.asmTrap) :
    h.step .ecall =
      { h with pc := L.asmTrap, csrs := { h.csrs with mepc := h.pc, mcause := 11#32 } } := by
  have hne := hv.asmTrapNonnull
  simp [Hart.step, Hart.effect, exec, Effect.raise, htvec, hne]

section Site
variable {stack : Span} {site : Hart} (hon : OnStack stack site)
include hon

theorem contextOf_toNat : (contextOf site).toNat = (site.x sp).toNat - 80 := by
  have hroom := hon.room
  rw [contextOf, BitVec.toNat_sub_of_le]
  · rfl
  · bv_omega

theorem contextOf_within : (Span.block (contextOf site) 80).Within stack := by
  have hroom := hon.room
  have htop := hon.top
  rw [Span.block_within, contextOf_toNat hon]
  omega

theorem contextOf_aligned : (contextOf site).toNat % 4 = 0 := by
  have hroom := hon.room
  have hal := hon.aligned
  rw [contextOf_toNat hon]
  omega

end Site

theorem contextOf_add (site : Hart) : site.x sp = contextOf site + 80#32 := by
  rw [contextOf, BitVec.sub_add_cancel]

/-- The context of a thread that has stopped at its `ecall`. -/
def stopped (site : Hart) : Snapshot := ⟨site.x, site.pc + 4#32⟩

section Switched
variable (hv : L.Valid) {who : Option ι} {site : Hart}
  (hon : OnStack (L.place (own who)) site) (htvec : site.csrs.mtvec = L.asmTrap) (junk : Junk)
include hv hon

theorem saved_keeps {o : Object ι} (h : Hart) (hown : o ≠ own who) :
    Keeps L o h.mem (savedMemory h (contextOf site)) := by
  apply savedMemory_same (context_bounds hv (contextOf_within hon)).2
  exact (hv.apart o _ hown).mono (.refl _) (contextOf_within hon)

/-- The frames of the handler are in the caller's stack. -/
theorem frames_keep {o : Object ι} (m : Memory) (hown : o ≠ own who) :
    Keeps L o m
      (overwrite ⟨(L.place (own who)).lo, (contextOf site).toNat⟩ junk.mem m) := by
  have hin := contextOf_within hon
  rw [Span.block_within] at hin
  apply overwrite_same
  apply (hv.apart o _ hown).mono (.refl _)
  exact ⟨Nat.le_refl _, by simp only; omega⟩

include htvec in
theorem switchedMemory_keeps {o : Object ι} (hown : o ≠ own who)
    (hslot : ∀ i ∈ who, o ≠ .slot i) (hfrom : o ≠ .switchFrom) (hto : o ≠ .switchTo) :
    Keeps L o site.mem (switchedMemory L who junk site) := by
  have hstep : (site.step .ecall).mem = site.mem := by
    rw [step_ecall hv htvec]
  have hsave := saved_keeps hv hon (site.step .ecall) hown
  rw [hstep] at hsave
  apply Same.trans hsave
  apply Same.trans (handledMemory_keeps hv (contextOf_within hon) hown hslot hfrom hto)
  exact frames_keep hv hon junk _ hown

omit hv hon in
theorem switchedMemory_same : Same (.block (contextOf site) 80)
    (handledMemory L who (contextOf site) (savedMemory (site.step .ecall) (contextOf site)))
    (switchedMemory L who junk site) := by
  apply overwrite_same
  exact .inr (Nat.le_refl _)

theorem switchedMemory_slot {i : ι} (hi : who = some i) :
    loadWord (switchedMemory L who junk site) (L.thread i).slot = contextOf site := by
  rw [switchedMemory, (frames_keep hv hon junk _ (slot_ne_own who i)).loadWord_eq hv (.refl _),
    handledMemory_slot hv (contextOf_within hon) hi]

include htvec in
theorem switchedMemory_held {i : ι} (hi : who = some i) :
    Held L (switchedMemory L who junk site) i (stopped site) := by
  have hin := contextOf_within hon
  have hlt := (context_bounds hv hin).2
  have hslot := switchedMemory_slot hv hon junk hi
  have hstep := step_ecall hv htvec
  have hword : ∀ k, 4 * k + 4 ≤ 80 →
      loadWord (switchedMemory L who junk site) (word (contextOf site) k) =
      loadWord (handledMemory L who (contextOf site)
        (savedMemory (site.step .ecall) (contextOf site))) (word (contextOf site) k) :=
    fun k hk => loadWord_word_same hlt hk (switchedMemory_same junk)
  have hsaved : Saved (switchedMemory L who junk site) (contextOf site) (stopped site) := by
    refine ⟨?_, contextOf_add site, ?_, ?_⟩
    · intro r hr
      have hreg := REGS_lt r hr
      have hsave := savedMemory_gpr hlt (h := site.step .ecall) hr
      rw [gpr_eq _ hreg] at hsave ⊢
      rw [hword _ (by bv_omega), handledMemory_word hv hin (by bv_omega), if_neg (by bv_omega),
        hsave, hstep]
      rfl
    · have hsave := savedMemory_epc hlt (h := site.step .ecall)
      rw [field_epc] at hsave ⊢
      rw [hword _ (by decide), handledMemory_word hv hin (by decide), if_pos rfl, hsave, hstep]
      rfl
    · have hpc := hon.pc
      have hadd : (stopped site).pc.toNat = (site.pc.toNat + 4) % 2 ^ 32 :=
        BitVec.toNat_add site.pc 4#32
      omega
  constructor
  · rw [hslot]
    exact contextOf_aligned hon
  · rw [hslot]
    subst hi
    exact hin
  · rw [hslot]
    exact hsaved

variable {j : ι} (ha5 : site.x a5 = -1#32) (hfrom : loadWord site.mem L.switchFrom = source L who)
  (hto : loadWord site.mem L.switchTo = (L.thread j).slot)
include htvec ha5 hfrom hto

/-- The call of `__am_irq_handle` in the trap. -/
theorem amIrqHandle_site {s : Snapshot} (hj : Held L (switchedMemory L who junk site) j s) :
    amIrqHandle (some (evHandler L)) (savedMemory (site.step .ecall) (contextOf site))
        (contextOf site) =
      some (handledMemory L who (contextOf site)
          (savedMemory (site.step .ecall) (contextOf site)),
        loadWord (switchedMemory L who junk site) (L.thread j).slot) := by
  have hin := contextOf_within hon
  have hlt := (context_bounds hv hin).2
  have hstep := step_ecall hv htvec
  have hmem : (site.step .ecall).mem = site.mem := by rw [hstep]
  have hcause : loadWord (savedMemory (site.step .ecall) (contextOf site))
      (field (contextOf site) OFFSET_CAUSE) = 11#32 := by
    rw [savedMemory_cause hlt, hstep]
    rfl
  have hyield : loadWord (savedMemory (site.step .ecall) (contextOf site))
      (gpr (contextOf site) a5) = -1#32 := by
    rw [savedMemory_gpr hlt (by decide), hstep]
    exact ha5
  have hsrc : loadWord (savedMemory (site.step .ecall) (contextOf site)) L.switchFrom =
      source L who := by
    rw [(saved_keeps hv hon _ (global_ne_own who (.inl rfl))).loadWord_eq hv (.refl _), hmem, hfrom]
  have hdst : loadWord (savedMemory (site.step .ecall) (contextOf site)) L.switchTo =
      (L.thread j).slot := by
    rw [(saved_keeps hv hon _ (global_ne_own who (.inr rfl))).loadWord_eq hv (.refl _), hmem, hto]
  have hload := (frames_keep hv hon junk (handledMemory L who (contextOf site)
    (savedMemory (site.step .ecall) (contextOf site))) (slot_ne_own who j)).loadWord_eq hv
    (a := (L.thread j).slot) (.refl _)
  rw [← switchedMemory] at hload
  have hnz : loadWord (switchedMemory L who junk site) (L.thread j).slot ≠ 0#32 := by
    intro h0
    have hpos := (context_bounds hv (o := .stack j) hj.within).1
    rw [h0] at hpos
    exact absurd hpos (by decide)
  rw [hload]
  rw [hload] at hnz
  exact amIrqHandle_yield hv hin hcause hyield hsrc hdst hnz

/-- The trap of a yield runs to its `mret`, into the context of `to`. -/
theorem ecall_resumes {s : Snapshot} (hj : Held L (switchedMemory L who junk site) j s) :
    ∃ h' : Hart, ecall L (L.place (own who)) junk site = some h' ∧ h'.pc = s.pc ∧
      (∀ r : Reg, r ≠ 0#5 → r < 16#5 → h'.x r = s.x r) ∧ h'.x 0#5 = 0#32 ∧
      h'.mem = switchedMemory L who junk site ∧ h'.csrs.mtvec = L.asmTrap := by
  have hin := contextOf_within hon
  have hlt := (context_bounds hv hin).2
  have hstep := step_ecall hv htvec
  have hpc : (site.step .ecall).pc = L.asmTrap := by rw [hstep]
  have hsp : (site.step .ecall).x sp = contextOf site + 80#32 := by
    rw [hstep]
    exact contextOf_add site
  obtain ⟨g, hrun, hgm, hga0, hgsp, hgc⟩ := run_entry hlt (contextOf_aligned hon) hsp
  have hcall := amIrqHandle_site hv hon htvec junk ha5 hfrom hto hj
  obtain ⟨h', hexit, hpc', hx, hx0, hmem, htvec'⟩ :=
    run_exit (context_bounds hv (o := .stack j) hj.within).2 hj.aligned
      (h := returned (L.place (own who)) junk g
        (handledMemory L who (contextOf site) (savedMemory (site.step .ecall) (contextOf site)))
        (loadWord (switchedMemory L who junk site) (L.thread j).slot))
      rfl (by rw [returned, hgsp]; exact hj.saved)
  refine ⟨h', ?_, hpc', hx, hx0, ?_, ?_⟩
  · simp only [ecall, hpc, if_pos, amAsmTrap, hrun, Option.bind_eq_bind, Option.bind_some, hgm,
      hga0, hcall, hexit]
  · rw [hmem, returned, hgsp]
    rfl
  · rw [htvec', returned, hgc, hstep]
    exact htvec

end Switched

end Am
