import AiOsoc.Npc.Ifu

/-!
# The counters of the instruction cache

The debug counters of `rtl/core/Ifu.v` against the refills they count. The unit
runs alone, with any inputs in any cycle.
-/

namespace Npc.Ifu

set_option autoImplicit false

/-! ## One edge -/

/-- The state, the beat and the counters after an edge, by what happens at it. -/
inductive Edge (f : State) (p : Port) : Phase → BitVec 2 → Counters → Prop where
  | rest (hs : f.state = .idle) (hv : p.fetchValid = false) :
    Edge f p .idle f.refillBeatQ f.counters
  | hit (hs : f.state = .idle) (hv : p.fetchValid = true) (hh : hit f p = true) :
    Edge f p .idle f.refillBeatQ { f.counters with
      accesses := f.counters.accesses + 1#64
      hits := f.counters.hits + 1#64 }
  | miss (hs : f.state = .idle) (hv : p.fetchValid = true) (hh : hit f p = false) :
    Edge f p .refill 0#2 { f.counters with
      accesses := f.counters.accesses + 1#64
      misses := f.counters.misses + 1#64 }
  | wait (hs : f.state = .refill) (hr : p.bus.ready = false) :
    Edge f p .refill f.refillBeatQ { f.counters with
      missWaitCycles := f.counters.missWaitCycles + 1#64 }
  | beat (hs : f.state = .refill) (hr : p.bus.ready = true) :
    Edge f p (if f.refillBeatQ = 3#2 then .idle else .refill) (f.refillBeatQ + 1#2)
      { f.counters with
        missWaitCycles := f.counters.missWaitCycles + 1#64
        refillBeats := f.counters.refillBeats + 1#64 }

theorem Edge.beat_eq {f : State} {p : Port} {s : Phase} {beat : BitVec 2} {c : Counters}
    (h : Edge f p s beat c) (hi : f.state = .idle) (hr : s = .refill) : beat = 0#2 := by
  cases h with
  | rest | hit => cases hr
  | miss => rfl
  | wait hs | beat hs =>
    rw [hi] at hs
    cases hs

theorem edge_next (f : State) (p : Port) :
    Edge f p (next f p).state (next f p).refillBeatQ (next f p).counters := by
  cases hs : f.state with
  | idle =>
    cases hv : p.fetchValid with
    | false =>
      have h := Edge.rest (p := p) hs hv
      simpa [next, nextCounters, hs, hv] using h
    | true =>
      cases hh : Ifu.hit f p with
      | true =>
        have h := Edge.hit (p := p) hs hv hh
        simpa [next, nextCounters, hs, hv, hh] using h
      | false =>
        have h := Edge.miss (p := p) hs hv hh
        simpa [next, nextCounters, hs, hv, hh] using h
  | refill =>
    cases hr : p.bus.ready with
    | false =>
      have h := Edge.wait (p := p) hs hr
      simpa [next, nextCounters, refillFire, hs, hr] using h
    | true =>
      have h := Edge.beat (p := p) hs hr
      simpa [next, nextCounters, refillFire, refillLast, hs, hr] using h

/-! ## Every reachable state -/

/-- No counter is smaller after the edge than before it. -/
structure Unwrapped (c d : Counters) : Prop where
  accesses : c.accesses ≤ d.accesses
  hits : c.hits ≤ d.hits
  misses : c.misses ≤ d.misses
  missWaitCycles : c.missWaitCycles ≤ d.missWaitCycles
  refillBeats : c.refillBeats ≤ d.refillBeats

instance (c d : Counters) : Decidable (Unwrapped c d) :=
  decidable_of_iff (c.accesses ≤ d.accesses ∧ c.hits ≤ d.hits ∧ c.misses ≤ d.misses ∧
    c.missWaitCycles ≤ d.missWaitCycles ∧ c.refillBeats ≤ d.refillBeats)
    ⟨fun ⟨ha, hh, hm, hw, hb⟩ => ⟨ha, hh, hm, hw, hb⟩,
      fun h => ⟨h.accesses, h.hits, h.misses, h.missWaitCycles, h.refillBeats⟩⟩

/-- The states after a reset and any number of edges at which no counter wraps. -/
inductive Reachable : State → Prop where
  | reset : Reachable reset
  | next {f : State} (p : Port) : Reachable f →
    Unwrapped f.counters (next f p).counters → Reachable (next f p)

theorem toNat_count {x : BitVec 64} (h : x ≤ x + 1#64) : (x + 1#64).toNat = x.toNat + 1 := by
  have hx := x.isLt
  rw [BitVec.le_def, BitVec.toNat_add] at h
  rw [BitVec.toNat_add]
  simp only [BitVec.toNat_ofNat] at h ⊢
  omega

/-- The counters as natural numbers, against the phase and the beat of the refill
in progress. -/
structure Consistent (s : Phase) (beat : BitVec 2) (c : Counters) : Prop where
  accesses : c.accesses.toNat = c.hits.toNat + c.misses.toNat
  idle : s = .idle → c.refillBeats.toNat = 4 * c.misses.toNat
  refill : s = .refill →
    0 < c.misses.toNat ∧ c.refillBeats.toNat = 4 * (c.misses.toNat - 1) + beat.toNat
  waits : c.refillBeats.toNat ≤ c.missWaitCycles.toNat

theorem toNat_beat {b : BitVec 2} (h : b ≠ 3#2) : (b + 1#2).toNat = b.toNat + 1 := by
  have hb := b.isLt
  have h3 : b.toNat ≠ 3 := by
    intro h3
    exact h (BitVec.eq_of_toNat_eq h3)
  rw [BitVec.toNat_add]
  simp only [BitVec.toNat_ofNat]
  omega

theorem Consistent.edge {f : State} {p : Port} {s : Phase} {beat : BitVec 2} {c : Counters}
    (h : Consistent f.state f.refillBeatQ f.counters) (he : Edge f p s beat c)
    (hw : Unwrapped f.counters c) : Consistent s beat c := by
  cases he with
  | rest hs hv => exact ⟨h.accesses, fun _ => h.idle hs, by rintro ⟨⟩, h.waits⟩
  | hit hs hv hh =>
    have ha := h.accesses
    refine ⟨?_, fun _ => h.idle hs, by rintro ⟨⟩, h.waits⟩
    simp only [toNat_count hw.accesses, toNat_count hw.hits]
    omega
  | miss hs hv hh =>
    have ha := h.accesses
    have hi := h.idle hs
    refine ⟨?_, by rintro ⟨⟩, fun _ => ?_, h.waits⟩
    · simp only [toNat_count hw.accesses, toNat_count hw.misses]
      omega
    · simp only [toNat_count hw.misses, BitVec.toNat_zero]
      omega
  | wait hs hr =>
    have hm := h.waits
    refine ⟨h.accesses, by rintro ⟨⟩, fun _ => h.refill hs, ?_⟩
    simp only [toNat_count hw.missWaitCycles]
    omega
  | beat hs hr =>
    have hm := h.waits
    obtain ⟨hpos, hb⟩ := h.refill hs
    refine ⟨h.accesses, ?_, ?_, ?_⟩
    · intro hi
      have h3 : f.refillBeatQ = 3#2 := by
        by_contra h3
        simp [h3] at hi
      rw [h3, show (3#2).toNat = 3 from rfl] at hb
      simp only [toNat_count hw.refillBeats]
      omega
    · intro hf
      have h3 : f.refillBeatQ ≠ 3#2 := by
        intro h3
        simp [h3] at hf
      simp only [toNat_count hw.refillBeats, toNat_beat h3]
      omega
    · simp only [toNat_count hw.missWaitCycles, toNat_count hw.refillBeats]
      omega

theorem Reachable.consistent {f : State} (h : Reachable f) :
    Consistent f.state f.refillBeatQ f.counters := by
  induction h with
  | reset => exact ⟨rfl, fun _ => rfl, by rintro ⟨⟩, Nat.le_refl 0⟩
  | @next f p _ hw ih => exact ih.edge (edge_next f p) hw

/-! ## One refill -/

/-- The inputs of a whole refill, from a state in it to the idle state after it. -/
inductive Refill : State → List Port → State → Prop where
  | last {f : State} {p : Port} : f.state = .refill → (next f p).state = .idle →
    Refill f [p] (next f p)
  | more {f f' : State} {p : Port} {ps : List Port} : f.state = .refill →
    Refill (next f p) ps f' → Refill f (p :: ps) f'

/-- The bus beats the unit takes while it runs on `ps`. -/
def beats (f : State) : List Port → Nat
  | [] => 0
  | p :: ps => (refillFire f p).toNat + beats (next f p) ps

/-- An edge of a refill counts its beat, and leaves the refill with the fourth. -/
theorem next_refill {f : State} (p : Port) (hs : f.state = .refill) :
    ((next f p).state = .idle ∧ (refillFire f p).toNat + f.refillBeatQ.toNat = 4) ∨
    ((next f p).state = .refill ∧
      (next f p).refillBeatQ.toNat = (refillFire f p).toNat + f.refillBeatQ.toNat) := by
  cases hr : p.bus.ready with
  | false => simp [next, refillFire, hs, hr]
  | true =>
    by_cases h3 : f.refillBeatQ = 3#2
    · simp [next, refillFire, refillLast, hs, hr, h3]
    · have hb := toNat_beat h3
      simp [next, refillFire, refillLast, hs, hr, h3, hb, Nat.add_comm]

theorem Refill.state_eq {f f' : State} {ps : List Port} (h : Refill f ps f') :
    f.state = .refill := by
  cases h <;> assumption

theorem Refill.beats_eq {f f' : State} {ps : List Port} (h : Refill f ps f') :
    beats f ps + f.refillBeatQ.toNat = 4 := by
  induction h with
  | @last f p hs hi =>
    rcases next_refill p hs with ⟨_, hb⟩ | ⟨hr, _⟩
    · exact hb
    · rw [hi] at hr
      cases hr
  | @more f f' p ps hs hrest ih =>
    rcases next_refill p hs with ⟨hi, _⟩ | ⟨_, hb⟩
    · rw [hrest.state_eq] at hi
      cases hi
    · simp only [beats]
      omega

theorem icache_counters_consistent {f : State} (hf : Reachable f) :
    f.counters.accesses.toNat = f.counters.hits.toNat + f.counters.misses.toNat ∧
    (f.state = .idle → f.counters.refillBeats.toNat = 4 * f.counters.misses.toNat) ∧
    (f.state = .refill → 0 < f.counters.misses.toNat ∧
      f.counters.refillBeats.toNat =
        4 * (f.counters.misses.toNat - 1) + f.refillBeatQ.toNat) ∧
    f.counters.refillBeats.toNat ≤ f.counters.missWaitCycles.toNat ∧
    (∀ (p : Port) (ps : List Port) (f' : State), f.state = .idle → Refill (next f p) ps f' →
      beats (next f p) ps = 4) := by
  have h := hf.consistent
  refine ⟨h.accesses, h.idle, h.refill, h.waits, ?_⟩
  intro p ps f' hs hr
  have hb := hr.beats_eq
  have hz := (edge_next f p).beat_eq hs hr.state_eq
  simpa [hz] using hb

/-- A fetch that misses, and a beat of its refill that carries an error. -/
def missPort : Port := ⟨false, true, 0x80000000#32, ⟨false, 0#32, false⟩⟩
def errorBeat : Port := ⟨false, true, 0x80000000#32, ⟨true, 0x00000013#32, true⟩⟩

theorem icache_counters_erroneous_refill :
    let f := next (next (next (next (next reset missPort) errorBeat) errorBeat) errorBeat) errorBeat
    Reachable f ∧ f.counters.refillBeats.toNat = 4 * f.counters.misses.toNat ∧
      beats (next f missPort) [errorBeat, missPort, errorBeat, errorBeat, errorBeat] = 4 := by
  intro f
  have hf : Reachable f := by
    refine .next _ (.next _ (.next _ (.next _ (.next _ .reset ?_) ?_) ?_) ?_) ?_ <;> decide
  obtain ⟨_, hidle, _, _, hbeats⟩ := icache_counters_consistent hf
  have hr : Refill (next f missPort) [errorBeat, missPort, errorBeat, errorBeat, errorBeat] _ :=
    .more rfl (.more rfl (.more rfl (.more rfl (.last rfl rfl))))
  exact ⟨hf, hidle rfl, hbeats _ _ _ rfl hr⟩

end Npc.Ifu
