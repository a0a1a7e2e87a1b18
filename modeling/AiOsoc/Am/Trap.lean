import AiOsoc.Am.Context

/-!
# Saving and restoring a context

What `__am_asm_trap` stores and loads, and what the handler does to the two
globals in between.
-/

namespace Am

set_option autoImplicit false

open Rv32e ByteMemory

/-! ## The words of a context -/

theorem gpr_eq (c : BitVec 32) {r : Reg} (hr : r < 16#5) : gpr c r = word c r.toNat := by
  have h : (r.setWidth 12 * 4#12).signExtend 32 = BitVec.ofNat 32 (4 * r.toNat) := by
    revert r
    decide
  rw [gpr, field, h, word]

theorem field_cause (c : BitVec 32) : field c OFFSET_CAUSE = word c 16 := rfl
theorem field_status (c : BitVec 32) : field c OFFSET_STATUS = word c 17 := rfl
theorem field_epc (c : BitVec 32) : field c OFFSET_EPC = word c 18 := rfl
theorem field_sp (c : BitVec 32) : field c OFFSET_SP = word c 2 := rfl

/-! ## `PUSH` and `POP` -/

def pushAll (c : BitVec 32) (x : Reg → BitVec 32) (m : Memory) (rs : List Reg) : Memory :=
  rs.foldl (fun m r => storeWord m (gpr c r) (x r)) m

def popAll (c : BitVec 32) (m : Memory) (x : Reg → BitVec 32) (rs : List Reg) :
    Reg → BitVec 32 :=
  rs.foldl (fun x r => Function.update x r (loadWord m (gpr c r))) x

theorem popAll_of_notMem (c : BitVec 32) (m : Memory) (x : Reg → BitVec 32) {rs : List Reg}
    {r : Reg} (hr : r ∉ rs) : popAll c m x rs r = x r := by
  induction rs generalizing x with
  | nil => rfl
  | cons r' rs ih =>
    rw [List.mem_cons, not_or] at hr
    rw [popAll, List.foldl_cons]
    exact (ih _ hr.2).trans (Function.update_of_ne hr.1 _ _)

theorem popAll_of_mem (c : BitVec 32) (m : Memory) (x : Reg → BitVec 32) {rs : List Reg} {r : Reg}
    (hr : r ∈ rs) : popAll c m x rs r = loadWord m (gpr c r) := by
  induction rs generalizing x with
  | nil => cases hr
  | cons r' rs ih =>
    rw [popAll, List.foldl_cons]
    by_cases hrs : r ∈ rs
    · exact ih _ hrs
    · obtain rfl : r = r' := (List.mem_cons.mp hr).resolve_right hrs
      exact (popAll_of_notMem c m _ hrs).trans (Function.update_self ..)

theorem pushAll_congr (c : BitVec 32) {x y : Reg → BitVec 32} (m : Memory) {rs : List Reg}
    (h : ∀ r ∈ rs, x r = y r) : pushAll c x m rs = pushAll c y m rs := by
  induction rs generalizing m with
  | nil => rfl
  | cons r rs ih =>
    obtain ⟨hr, hrs⟩ := List.forall_mem_cons.mp h
    rw [pushAll, List.foldl_cons, hr]
    exact ih _ hrs

section Frame
variable {c : BitVec 32} (hc : c.toNat + 80 ≤ 2 ^ 32) {rs : List Reg} (hrs : ∀ r ∈ rs, r < 16#5)
include hc hrs

theorem pushAll_same (x : Reg → BitVec 32) (m : Memory) {s : Span} (hs : s.Apart (.block c 80)) :
    Same s m (pushAll c x m rs) := by
  induction rs generalizing m with
  | nil => exact Same.refl
  | cons r rs ih =>
    obtain ⟨hr, hrs⟩ := List.forall_mem_cons.mp hrs
    have hlt : 4 * r.toNat + 4 ≤ 80 := by bv_omega
    rw [pushAll, List.foldl_cons, gpr_eq c hr]
    exact (storeWord_word_same hc hlt m _ hs).trans (ih hrs _)

theorem pushAll_word (x : Reg → BitVec 32) (m : Memory) {k : Nat} (hk : 4 * k + 4 ≤ 80)
    (hn : ∀ r ∈ rs, r.toNat ≠ k) :
    loadWord (pushAll c x m rs) (word c k) = loadWord m (word c k) := by
  induction rs generalizing m with
  | nil => rfl
  | cons r rs ih =>
    obtain ⟨hr, hrs⟩ := List.forall_mem_cons.mp hrs
    obtain ⟨hne, hn⟩ := List.forall_mem_cons.mp hn
    have hlt : 4 * r.toNat + 4 ≤ 80 := by bv_omega
    rw [pushAll, List.foldl_cons, gpr_eq c hr]
    refine (ih hrs _ hn).trans ?_
    rw [loadWord_word hc hk hlt, if_neg hne]

theorem pushAll_gpr (x : Reg → BitVec 32) (m : Memory) {r : Reg} (hr : r ∈ rs) :
    loadWord (pushAll c x m rs) (gpr c r) = x r := by
  induction rs generalizing m with
  | nil => cases hr
  | cons r' rs ih =>
    obtain ⟨hlt', hrest⟩ := List.forall_mem_cons.mp hrs
    rw [pushAll, List.foldl_cons]
    by_cases hmem : r ∈ rs
    · exact ih hrest _ hmem
    · obtain rfl : r = r' := (List.mem_cons.mp hr).resolve_right hmem
      have hlt : 4 * r.toNat + 4 ≤ 80 := by bv_omega
      have hn : ∀ r' ∈ rs, r'.toNat ≠ r.toNat := by
        intro r' hr' heq
        exact hmem (BitVec.eq_of_toNat_eq heq ▸ hr')
      rw [gpr_eq c hlt']
      refine (pushAll_word hc hrest x _ hlt hn).trans ?_
      exact loadWord_storeWord ..

variable (ha : c.toNat % 4 = 0)
include ha

omit hc hrs ha in
theorem sp_field {h : Hart} (hsp : h.x sp = c) (offset : BitVec 12) :
    h.x sp + offset.signExtend 32 = field c offset := by
  rw [hsp, field]

theorem run_push {h : Hart} (hsp : h.x sp = c) (is : List Instr) :
    ∃ h' : Hart, h.run (rs.map PUSH ++ is) = h'.run is ∧ h'.mem = pushAll c h.x h.mem rs ∧
      h'.x = h.x ∧ h'.csrs = h.csrs := by
  induction rs generalizing h with
  | nil => exact ⟨h, rfl, rfl, rfl, rfl⟩
  | cons r rs ih =>
    obtain ⟨hr, hrs⟩ := List.forall_mem_cons.mp hrs
    have hlt : 4 * r.toNat + 4 ≤ 80 := by bv_omega
    have hal : (gpr c r).toNat % 4 = 0 := by
      rw [gpr_eq c hr]
      exact word_aligned hc hlt ha
    rw [List.map_cons, List.cons_append, PUSH, Hart.run_sw _ _ _ _ _ (sp_field hsp _) hal]
    exact ih hrs hsp

theorem run_pop (h0 : 0#5 ∉ rs) (h2 : sp ∉ rs) {h : Hart} (hsp : h.x sp = c) (is : List Instr) :
    ∃ h' : Hart, h.run (rs.map POP ++ is) = h'.run is ∧ h'.x = popAll c h.mem h.x rs ∧
      h'.mem = h.mem ∧ h'.csrs = h.csrs := by
  induction rs generalizing h with
  | nil => exact ⟨h, rfl, rfl, rfl, rfl⟩
  | cons r rs ih =>
    obtain ⟨hr, hrs⟩ := List.forall_mem_cons.mp hrs
    rw [List.mem_cons, not_or] at h0 h2
    have hlt : 4 * r.toNat + 4 ≤ 80 := by bv_omega
    have hal : (gpr c r).toNat % 4 = 0 := by
      rw [gpr_eq c hr]
      exact word_aligned hc hlt ha
    rw [List.map_cons, List.cons_append, POP,
      Hart.run_lw _ _ _ _ (Ne.symm h0.1) (sp_field hsp _) hal]
    apply ih hrs h0.2 h2.2
    rw [Hart.setX_of_ne _ _ _ h2.1, hsp]

end Frame

theorem REGS_lt : ∀ r ∈ REGS, r < 16#5 := by decide

theorem mem_REGS {r : Reg} (hr : r < 16#5) (h0 : r ≠ 0#5) (h2 : r ≠ sp) : r ∈ REGS := by
  revert r
  decide

/-- The registers and the `pc` a context stands for. -/
structure Snapshot where
  x : Reg → BitVec 32
  pc : BitVec 32

/-- The context at `c` holds a snapshot. The stored `sp` is not read back: it is
where the context ends. -/
structure Saved (m : Memory) (c : BitVec 32) (s : Snapshot) : Prop where
  gprs : ∀ r ∈ REGS, loadWord m (gpr c r) = s.x r
  sp : s.x sp = c + 80#32
  epc : loadWord m (field c OFFSET_EPC) = s.pc
  aligned : s.pc.toNat % 4 = 0

theorem Saved.same {m m' : Memory} {c : BitVec 32} {s : Snapshot} (hc : c.toNat + 80 ≤ 2 ^ 32)
    (h : Same (.block c 80) m m') (hs : Saved m c s) : Saved m' c s where
  gprs r hr := by
    have hlt := REGS_lt r hr
    have hk : 4 * r.toNat + 4 ≤ 80 := by bv_omega
    have hr := hs.gprs r hr
    rw [gpr_eq c hlt] at hr ⊢
    rw [loadWord_word_same hc hk h, hr]
  sp := hs.sp
  epc := by
    have he := hs.epc
    rw [field_epc] at he ⊢
    rw [loadWord_word_same hc (by decide) h, he]
  aligned := hs.aligned

/-! ## Saving -/

/-- The memory after the pushes, with the CSRs and `sp`. -/
def savedMemory (h : Hart) (c : BitVec 32) : Memory :=
  let m := pushAll c h.x h.mem REGS
  let m := storeWord m (word c 16) (h.csrs.read mcause)
  let m := storeWord m (word c 17) (h.csrs.read mstatus)
  let m := storeWord m (word c 18) (h.csrs.read mepc)
  storeWord m (word c 2) c

section Save
variable {h : Hart} {c : BitVec 32} (hc : c.toNat + 80 ≤ 2 ^ 32)

include hc

theorem savedMemory_same {s : Span} (hs : s.Apart (.block c 80)) :
    Same s h.mem (savedMemory h c) := by
  apply (pushAll_same hc REGS_lt h.x h.mem hs).trans
  apply (storeWord_word_same hc (by decide : 4 * 16 + 4 ≤ 80) _ _ hs).trans
  apply (storeWord_word_same hc (by decide : 4 * 17 + 4 ≤ 80) _ _ hs).trans
  apply (storeWord_word_same hc (by decide : 4 * 18 + 4 ≤ 80) _ _ hs).trans
  exact storeWord_word_same hc (by decide : 4 * 2 + 4 ≤ 80) _ _ hs

theorem savedMemory_gpr {r : Reg} (hr : r ∈ REGS) :
    loadWord (savedMemory h c) (gpr c r) = h.x r := by
  have hlt := REGS_lt r hr
  have hk : 4 * r.toNat + 4 ≤ 80 := by bv_omega
  have h2 : 2 ≠ r.toNat := by
    intro h2
    have : r = sp := BitVec.eq_of_toNat_eq h2.symm
    exact absurd (this ▸ hr) (by decide)
  have hpush := pushAll_gpr hc REGS_lt h.x h.mem hr
  rw [gpr_eq c hlt] at hpush ⊢
  rw [savedMemory, loadWord_word hc hk (by decide), if_neg h2, loadWord_word hc hk (by decide),
    if_neg (by bv_omega), loadWord_word hc hk (by decide), if_neg (by bv_omega),
    loadWord_word hc hk (by decide), if_neg (by bv_omega), hpush]

theorem savedMemory_cause :
    loadWord (savedMemory h c) (field c OFFSET_CAUSE) = h.csrs.read mcause := by
  rw [field_cause, savedMemory, loadWord_word hc (by decide) (by decide), if_neg (by decide),
    loadWord_word hc (by decide) (by decide), if_neg (by decide),
    loadWord_word hc (by decide) (by decide), if_neg (by decide), loadWord_storeWord]

theorem savedMemory_epc :
    loadWord (savedMemory h c) (field c OFFSET_EPC) = h.csrs.read mepc := by
  rw [field_epc, savedMemory, loadWord_word hc (by decide) (by decide), if_neg (by decide),
    loadWord_storeWord]

end Save

section Assembly
variable {c : BitVec 32} (hc : c.toNat + 80 ≤ 2 ^ 32) (ha : c.toNat % 4 = 0)
include hc ha

/-- The lines of `__am_asm_trap` after the pushes. -/
theorem run_saveCsrs {h : Hart} (hsp : h.x sp = c) :
    ∃ h', h.run [csrr t0 mcause, csrr t1 mstatus, csrr t2 mepc, sw t0 OFFSET_CAUSE sp,
        sw t1 OFFSET_STATUS sp, sw t2 OFFSET_EPC sp, sw sp OFFSET_SP sp, mv a0 sp] = some h' ∧
      h'.mem = storeWord (storeWord (storeWord (storeWord h.mem (word c 16) (h.csrs.read mcause))
        (word c 17) (h.csrs.read mstatus)) (word c 18) (h.csrs.read mepc)) (word c 2) c ∧
      h'.x a0 = c ∧ h'.x sp = c ∧ h'.csrs = h.csrs := by
  have hal : ∀ k, 4 * k + 4 ≤ 80 → (word c k).toNat % 4 = 0 := fun k hk => word_aligned hc hk ha
  rw [Hart.run_csrr _ _ (by decide), Hart.run_csrr _ _ (by decide), Hart.run_csrr _ _ (by decide)]
  simp only [Hart.setX_csrs]
  -- The stores read the temporaries back; `sp` is none of them.
  obtain ⟨g, hg⟩ : ∃ g, g = ((h.setX t0 (h.csrs.read mcause)).setX t1 (h.csrs.read mstatus)).setX t2
      (h.csrs.read mepc) := ⟨_, rfl⟩
  have hg0 : g.x t0 = h.csrs.read mcause := by
    rw [hg, Hart.setX_of_ne _ _ _ (by decide), Hart.setX_of_ne _ _ _ (by decide), Hart.setX_self]
  have hg1 : g.x t1 = h.csrs.read mstatus := by
    rw [hg, Hart.setX_of_ne _ _ _ (by decide), Hart.setX_self]
  have hg2 : g.x t2 = h.csrs.read mepc := by
    rw [hg, Hart.setX_self]
  have hgsp : g.x sp = c := by
    rw [hg, Hart.setX_of_ne _ _ _ (by decide), Hart.setX_of_ne _ _ _ (by decide),
      Hart.setX_of_ne _ _ _ (by decide), hsp]
  have hgm : g.mem = h.mem := by rw [hg, Hart.setX_mem, Hart.setX_mem, Hart.setX_mem]
  have hgc : g.csrs = h.csrs := by rw [hg, Hart.setX_csrs, Hart.setX_csrs, Hart.setX_csrs]
  rw [← hg,
    Hart.run_sw _ _ _ _ _ (sp_field hgsp OFFSET_CAUSE) (hal 16 (by decide)),
    Hart.run_sw _ _ _ _ _ (sp_field (h := g.store _ _) hgsp OFFSET_STATUS) (hal 17 (by decide)),
    Hart.run_sw _ _ _ _ _ (sp_field (h := (g.store _ _).store _ _) hgsp OFFSET_EPC)
      (hal 18 (by decide)),
    Hart.run_sw _ _ _ _ _ (sp_field (h := ((g.store _ _).store _ _).store _ _) hgsp OFFSET_SP)
      (hal 2 (by decide)),
    Hart.run_mv _ _ _ (by decide)]
  simp only [Hart.store_x, hg0, hg1, hg2, hgsp]
  refine ⟨_, rfl, ?_, Hart.setX_self .., ?_, ?_⟩
  · simp only [Hart.setX_mem, Hart.store_mem, hgm, field_cause, field_status, field_epc, field_sp]
  · rw [Hart.setX_of_ne _ _ _ (by decide)]
    exact hgsp
  · exact hgc

/-- The context is at `c`, the argument of `__am_irq_handle`. -/
theorem run_entry {h : Hart} (hsp : h.x sp = c + 80#32) :
    ∃ h' : Hart, h.run amAsmTrapEntry = some h' ∧ h'.mem = savedMemory h c ∧ h'.x a0 = c ∧
      h'.x sp = c ∧ h'.csrs = h.csrs := by
  have hsub : h.x sp + (-BitVec.ofNat 12 CONTEXT_SIZE).signExtend 32 = c := by
    rw [hsp, BitVec.add_assoc]
    exact BitVec.add_zero c
  rw [amAsmTrapEntry, List.append_assoc, List.singleton_append, Hart.run_addi _ _ _ _ (by decide),
    hsub]
  obtain ⟨h', hpush, hmem, hx, hcsrs⟩ := run_push hc REGS_lt ha (Hart.setX_self h sp c)
    [csrr t0 mcause, csrr t1 mstatus, csrr t2 mepc, sw t0 OFFSET_CAUSE sp, sw t1 OFFSET_STATUS sp,
      sw t2 OFFSET_EPC sp, sw sp OFFSET_SP sp, mv a0 sp]
  have hpushed : pushAll c (h.setX sp c).x h.mem REGS = pushAll c h.x h.mem REGS := by
    apply pushAll_congr
    intro r hr
    apply Hart.setX_of_ne
    rintro rfl
    exact absurd hr (by decide)
  obtain ⟨h'', hrun, hmem', ha0, hsp', hcsrs'⟩ := run_saveCsrs hc ha
    (by rw [hx]; exact Hart.setX_self h sp c)
  refine ⟨h'', hpush.trans hrun, ?_, ha0, hsp', hcsrs'.trans hcsrs⟩
  rw [hmem', hmem, hcsrs, Hart.setX_csrs, Hart.setX_mem, hpushed, savedMemory]

/-! ## Restoring -/

/-- The lines of `__am_asm_trap` between the call and the pops. -/
theorem run_loadCsrs {h : Hart} (ha0 : h.x a0 = c) (is : List Instr) :
    ∃ h' : Hart, h.run ([mv sp a0, lw t1 OFFSET_STATUS sp, lw t2 OFFSET_EPC sp, csrw mstatus t1,
        csrw mepc t2] ++ is) = h'.run is ∧ h'.x sp = c ∧ h'.x 0#5 = h.x 0#5 ∧ h'.mem = h.mem ∧
      h'.csrs.mepc = loadWord h.mem (field c OFFSET_EPC) &&& ~~~3#32 ∧
      h'.csrs.mtvec = h.csrs.mtvec := by
  have hal : ∀ k, 4 * k + 4 ≤ 80 → (word c k).toNat % 4 = 0 := fun k hk => word_aligned hc hk ha
  have hsp1 : (h.setX sp c).x sp = c := Hart.setX_self ..
  have hsp2 : ∀ v, ((h.setX sp c).setX t1 v).x sp = c := by
    intro v
    rw [Hart.setX_of_ne _ _ _ (by decide), hsp1]
  simp only [List.cons_append, List.nil_append]
  rw [Hart.run_mv _ _ _ (by decide), ha0,
    Hart.run_lw _ _ _ _ (by decide) (sp_field hsp1 OFFSET_STATUS) (hal 17 (by decide)),
    Hart.run_lw _ _ _ _ (by decide) (sp_field (hsp2 _) OFFSET_EPC) (hal 18 (by decide)),
    Hart.run_csrw, Hart.run_csrw]
  refine ⟨_, rfl, ?_, ?_, rfl, ?_, rfl⟩
  · rw [Hart.setCsrs_x, Hart.setCsrs_x, Hart.setX_of_ne _ _ _ (by decide), hsp2]
  · rw [Hart.setCsrs_x, Hart.setCsrs_x, Hart.setX_of_ne _ _ _ (by decide),
      Hart.setX_of_ne _ _ _ (by decide), Hart.setX_of_ne _ _ _ (by decide)]
  · rw [Hart.setCsrs_csrs, Hart.setCsrs_x, Hart.setX_self]
    rfl

theorem run_exit {h : Hart} {s : Snapshot} (ha0 : h.x a0 = c) (hs : Saved h.mem c s) :
    ∃ h' : Hart, h.run amAsmTrapExit = some h' ∧ h'.pc = s.pc ∧
      (∀ r : Reg, r ≠ 0#5 → r < 16#5 → h'.x r = s.x r) ∧ h'.x 0#5 = h.x 0#5 ∧ h'.mem = h.mem ∧
      h'.csrs.mtvec = h.csrs.mtvec := by
  rw [amAsmTrapExit, List.append_assoc]
  obtain ⟨g, hg, hgsp, hg0, hgm, hepc, htvec⟩ := run_loadCsrs hc ha ha0
    (REGS.map POP ++ [addi sp sp (BitVec.ofNat 12 CONTEXT_SIZE), .mret])
  obtain ⟨g', hpop, hx, hm, hcsrs⟩ := run_pop hc REGS_lt ha (by decide) (by decide) hgsp
    [addi sp sp (BitVec.ofNat 12 CONTEXT_SIZE), .mret]
  have hsp : g'.x sp = c := by
    rw [hx, popAll_of_notMem _ _ _ (by decide), hgsp]
  rw [hg, hpop, Hart.run_addi _ _ _ _ (by decide), hsp, Hart.run_mret]
  refine ⟨_, rfl, ?_, ?_, ?_, ?_, ?_⟩
  · simp only [Hart.setX_csrs, hcsrs, hepc, hs.epc]
    exact and_not_three hs.aligned
  · intro r h0 hr
    by_cases h2 : r = sp
    · rw [h2, hs.sp]
      exact Hart.setX_self g' sp _
    · have hmem := mem_REGS hr h0 h2
      rw [Hart.setX_of_ne _ _ _ h2, hx, popAll_of_mem _ _ _ hmem, hgm, hs.gprs r hmem]
  · rw [Hart.setX_of_ne _ _ _ (by decide), hx, popAll_of_notMem _ _ _ (by decide), hg0]
  · rw [Hart.setX_mem, hm, hgm]
  · rw [Hart.setX_csrs, hcsrs, htvec]

end Assembly

end Am
