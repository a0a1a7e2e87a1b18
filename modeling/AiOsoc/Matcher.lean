import Mathlib.Data.List.Infix
import Mathlib.Data.Nat.Find
import Mathlib.Tactic.SplitIfs

/-!
# A matcher with one position

A matcher for a fixed text keeps the number of characters matched so far. On a
mismatch it does not try shorter prefixes of the text: it begins again, with the
character at hand if that is the first one. It finds every occurrence exactly
when a text cannot begin again inside itself and then break off.
-/

namespace Matcher

set_option autoImplicit false

universe u

variable {α : Type u}

structure State where
  pos : Nat
  seen : Bool

def start : State := ⟨0, false⟩

def step [DecidableEq α] (p : List α) (s : State) (c : α) : State :=
  if s.seen then s
  else if p[s.pos]? = some c then ⟨s.pos + 1, s.pos + 1 == p.length⟩
  else ⟨if p[0]? = some c then 1 else 0, false⟩

def run [DecidableEq α] (p : List α) (s : State) (cs : List α) : State := cs.foldl (step p) s

/-- Wherever the first character stands again, the text goes on as it began. -/
def Restartable (p : List α) : Prop :=
  ∀ o, 0 < o → o < p.length → p[o]? = p[0]? → p.drop o <+: p

instance [DecidableEq α] (p : List α) : Decidable (Restartable p) :=
  decidable_of_iff (∀ o < p.length, 0 < o → p[o]? = p[0]? → p.drop o <+: p)
    ⟨fun h o ho hlt => h o hlt ho, fun h o hlt ho => h o ho hlt⟩

section Step
variable [DecidableEq α] {p : List α}

theorem run_append (s : State) (cs ds : List α) :
    run p s (cs ++ ds) = run p (run p s cs) ds := List.foldl_append

theorem run_concat (s : State) (cs : List α) (c : α) :
    run p s (cs ++ [c]) = step p (run p s cs) c := List.foldl_append

theorem step_seen {s : State} (h : s.seen = true) (c : α) : step p s c = s := if_pos h

theorem step_match {s : State} (h : s.seen = false) {c : α} (hc : p[s.pos]? = some c) :
    step p s c = ⟨s.pos + 1, s.pos + 1 == p.length⟩ := by
  simp [step, h, hc]

theorem step_mismatch {s : State} (h : s.seen = false) {c : α} (hc : p[s.pos]? ≠ some c) :
    step p s c = ⟨if p[0]? = some c then 1 else 0, false⟩ := by
  simp [step, h, hc]

end Step

section Prefixes
variable {p : List α}

theorem take_succ_eq {k : Nat} {c : α} (h : p[k]? = some c) : p.take (k + 1) = p.take k ++ [c] := by
  rw [List.take_add_one, h]
  rfl

/-- A prefix of the text that ends a stream with one more character. -/
theorem take_suffix_concat_iff {k : Nat} {cs : List α} {c : α} (hk : k < p.length) :
    p.take (k + 1) <:+ cs ++ [c] ↔ p[k]? = some c ∧ p.take k <:+ cs := by
  have hget : p[k]? = some p[k] := List.getElem?_eq_getElem hk
  rw [take_succ_eq hget, hget]
  constructor
  · intro h
    rcases List.suffix_concat_iff.mp h with hnil | ⟨t, ht, hs⟩
    · exact absurd hnil (List.append_ne_nil_of_right_ne_nil _ (List.cons_ne_nil _ _))
    · obtain ⟨rfl, hc⟩ := List.append_inj' ht rfl
      exact ⟨by rw [List.cons.inj hc |>.1], hs⟩
  · rintro ⟨hc, hs⟩
    rw [Option.some.inj hc]
    exact List.suffix_concat_iff.mpr (Or.inr ⟨_, rfl, hs⟩)

/-- Where two prefixes of the text end at the same place, they go on alike. -/
theorem restart_next (hr : Restartable p) {b j : Nat} (hb : 0 < b) (hbj : b < j)
    (hj : j < p.length) (hsuf : p.take b <:+ p.take j) : p[j]? = p[b]? := by
  obtain ⟨t, ht⟩ := hsuf
  have hlen : t.length = j - b := by
    have := congrArg List.length ht
    simp only [List.length_append, List.length_take] at this
    omega
  have hfirst : p[j - b]? = p[0]? := by
    calc p[j - b]? = (p.take j)[j - b]? := by rw [List.getElem?_take_of_lt (by omega)]
      _ = (t ++ p.take b)[t.length]? := by rw [ht, hlen]
      _ = (p.take b)[0]? := by rw [List.getElem?_append_right (Nat.le_refl _), Nat.sub_self]
      _ = p[0]? := by rw [List.getElem?_take_of_lt hb]
  obtain ⟨r, hpre⟩ := hr (j - b) (by omega) (by omega) hfirst
  calc p[j]? = (p.drop (j - b))[b]? := by rw [List.getElem?_drop, Nat.sub_add_cancel (by omega)]
    _ = (p.drop (j - b) ++ r)[b]? := by
      rw [List.getElem?_append_left (by rw [List.length_drop]; omega)]
    _ = p[b]? := by rw [hpre]

end Prefixes

/-! ## Detection -/

/-- What the state says of the characters read: whether the text occurred, and
else the longest prefix of the text that ends them. -/
structure Tracks (p : List α) (cs : List α) (s : State) : Prop where
  found : s.seen = true → p <:+: cs
  missing : s.seen = false → ¬ p <:+: cs
  lt : s.seen = false → s.pos < p.length
  ends : s.seen = false → p.take s.pos <:+ cs
  longest : s.seen = false → ∀ k, k < p.length → p.take k <:+ cs → k ≤ s.pos

theorem tracks_start {p : List α} (hp : p ≠ []) : Tracks p [] start where
  found h := absurd h (by decide)
  missing _ h := hp (List.eq_nil_of_infix_nil h)
  lt _ := List.length_pos_iff.mpr hp
  ends _ := List.nil_suffix
  longest _ k hk h := by
    have := h.length_le
    rw [List.length_take, List.length_nil] at this
    simp only [start]
    omega

/-- The text is completed by a character only at the last position. -/
theorem Tracks.not_completed {p cs : List α} {s : State} (h : Tracks p cs s) (hs : s.seen = false)
    {c : α} (hc : s.pos + 1 < p.length ∨ p[s.pos]? ≠ some c) : ¬ p <:+: cs ++ [c] := by
  intro hin
  rcases List.infix_concat_iff.mp hin with hsuf | hold
  · have hlt := h.lt hs
    have hfull : p.take (p.length - 1 + 1) <:+ cs ++ [c] := by
      rw [Nat.sub_add_cancel (by omega), List.take_length]
      exact hsuf
    obtain ⟨hlast, hpre⟩ := (take_suffix_concat_iff (by omega)).mp hfull
    have hpos : s.pos = p.length - 1 := by
      have := h.longest hs _ (by omega) hpre
      omega
    rcases hc with hc | hc
    · omega
    · exact hc (by rw [hpos]; exact hlast)
  · exact h.missing hs hold

section Tracks
variable [DecidableEq α] {p cs : List α} {s : State}

theorem Tracks.step_match (h : Tracks p cs s) (hs : s.seen = false) {c : α}
    (hc : p[s.pos]? = some c) : Tracks p (cs ++ [c]) (step p s c) := by
  have hlt := h.lt hs
  have hends : p.take (s.pos + 1) <:+ cs ++ [c] :=
    (take_suffix_concat_iff hlt).mpr ⟨hc, h.ends hs⟩
  rw [Matcher.step_match hs hc]
  by_cases hlast : s.pos + 1 = p.length
  · have hseen : (s.pos + 1 == p.length) = true := beq_iff_eq.mpr hlast
    rw [hlast, List.take_length] at hends
    simp only [hseen]
    exact ⟨fun _ => hends.isInfix, by rintro ⟨⟩, by rintro ⟨⟩, by rintro ⟨⟩, by rintro ⟨⟩⟩
  · have hseen : (s.pos + 1 == p.length) = false := beq_eq_false_iff_ne.mpr hlast
    simp only [hseen]
    refine ⟨by rintro ⟨⟩, fun _ => h.not_completed hs (Or.inl (by omega)),
      fun _ => by simp only; omega, fun _ => hends, fun _ k hk hsuf => ?_⟩
    cases k with
    | zero => exact Nat.zero_le _
    | succ k =>
      have := h.longest hs k (by omega) ((take_suffix_concat_iff (by omega)).mp hsuf).2
      simp only
      omega

theorem Tracks.step_mismatch (hr : Restartable p) (h : Tracks p cs s) (hs : s.seen = false) {c : α}
    (hc : p[s.pos]? ≠ some c) : Tracks p (cs ++ [c]) (step p s c) := by
  have hlt := h.lt hs
  rw [Matcher.step_mismatch hs hc]
  refine ⟨by rintro ⟨⟩, fun _ => h.not_completed hs (Or.inr hc), fun _ => ?_, fun _ => ?_,
    fun _ k hk hsuf => ?_⟩
  · -- a text of one character would have matched
    simp only
    split_ifs with h0
    · have hpos : s.pos ≠ 0 := fun hz => hc (by rw [hz]; exact h0)
      omega
    · omega
  · simp only
    split_ifs with h0
    · exact (take_suffix_concat_iff (by omega)).mpr ⟨h0, List.nil_suffix⟩
    · exact List.nil_suffix
  · cases k with
    | zero => exact Nat.zero_le _
    | succ k =>
      obtain ⟨hkc, hsuf⟩ := (take_suffix_concat_iff (by omega)).mp hsuf
      cases k with
      | zero => simp [hkc]
      | succ k =>
        -- a longer prefix would have to break off where this one does not
        have hle := h.longest hs _ (by omega) hsuf
        have hne : k + 1 ≠ s.pos := fun heq => hc (by rw [← heq]; exact hkc)
        have hborder : p.take (k + 1) <:+ p.take s.pos :=
          List.suffix_of_suffix_length_le hsuf (h.ends hs)
            (by simp only [List.length_take]; omega)
        exact absurd ((restart_next hr (by omega) (by omega) hlt hborder).trans hkc) hc

theorem Tracks.step (hr : Restartable p) (h : Tracks p cs s) (c : α) :
    Tracks p (cs ++ [c]) (step p s c) := by
  cases hs : s.seen with
  | true =>
    rw [step_seen hs]
    have hin : p <:+: cs ++ [c] := List.infix_concat_iff.mpr (Or.inr (h.found hs))
    constructor
    · exact fun _ => hin
    all_goals
      intro hf
      rw [hs] at hf
      cases hf
  | false =>
    by_cases hc : p[s.pos]? = some c
    · exact h.step_match hs hc
    · exact h.step_mismatch hr hs hc

theorem tracks_run (hr : Restartable p) (hp : p ≠ []) (cs : List α) :
    Tracks p cs (run p start cs) := by
  induction cs using List.reverseRecOn with
  | nil => exact tracks_start hp
  | append_singleton cs c ih =>
    rw [run_concat]
    exact ih.step hr c

end Tracks

/-! ## A text that is missed -/

section Missed
variable [DecidableEq α] {p : List α}

/-- A prefix of the text is matched character by character. -/
theorem run_take {k : Nat} (hk : k < p.length) : run p start (p.take k) = ⟨k, false⟩ := by
  induction k with
  | zero => rfl
  | succ k ih =>
    have hget : p[k]? = some p[k] := List.getElem?_eq_getElem (by omega)
    have hne : (k + 1 == p.length) = false := beq_eq_false_iff_ne.mpr (by omega)
    rw [take_succ_eq hget, run_concat, ih (by omega), step_match rfl hget, hne]

/-- One character moves the position by at most one. -/
theorem run_not_seen (cs : List α) {s : State} (hs : s.seen = false)
    (hlen : s.pos + cs.length < p.length) : (run p s cs).seen = false := by
  induction cs generalizing s with
  | nil => exact hs
  | cons c cs ih =>
    rw [List.length_cons] at hlen
    show (run p (step p s c) cs).seen = false
    by_cases hc : p[s.pos]? = some c
    · rw [step_match hs hc]
      exact ih (beq_eq_false_iff_ne.mpr (by omega)) (by simp only; omega)
    · rw [step_mismatch hs hc]
      refine ih rfl ?_
      simp only
      split_ifs with h0
      · have hpos : s.pos ≠ 0 := fun hz => hc (by rw [hz]; exact h0)
        omega
      · omega

/-- Where the text begins again and then differs. -/
theorem exists_break (h : ¬ Restartable p) : ∃ b j, 0 < b ∧ b < j ∧ j < p.length ∧
    p.take b <:+ p.take j ∧ p[j]? ≠ p[b]? := by
  obtain ⟨o, ho, hlt, hfirst, hdrop⟩ :
      ∃ o, 0 < o ∧ o < p.length ∧ p[o]? = p[0]? ∧ ¬ p.drop o <+: p := by
    simpa only [Restartable, not_forall, exists_prop] using h
  have hdiff : ∃ i, o + i < p.length ∧ p[o + i]? ≠ p[i]? := by
    by_contra hsame
    refine hdrop (List.prefix_iff_getElem?.mpr fun i hi => ?_)
    rw [List.length_drop] at hi
    have heq : p[o + i]? = p[i]? := by
      by_contra hne
      exact hsame ⟨i, by omega, hne⟩
    rw [← heq, List.getElem?_eq_getElem (by omega), List.getElem_drop]
  -- the first difference behind the second beginning
  obtain ⟨hb, hne⟩ := Nat.find_spec hdiff
  have hleast := fun {i} hi => Nat.find_min hdiff (m := i) hi
  generalize Nat.find hdiff = b at hb hne hleast
  have hpos : 0 < b := by
    rcases Nat.eq_zero_or_pos b with rfl | hpos
    · exact absurd hfirst hne
    · exact hpos
  have hagree : (p.drop o).take b = p.take b := by
    apply List.ext_getElem?
    intro i
    by_cases hi : i < b
    · rw [List.getElem?_take_of_lt hi, List.getElem?_take_of_lt hi, List.getElem?_drop]
      by_contra hd
      exact hleast hi ⟨by omega, hd⟩
    · rw [List.getElem?_take_eq_none (by omega), List.getElem?_take_eq_none (by omega)]
  refine ⟨b, o + b, hpos, by omega, hb, ⟨p.take o, ?_⟩, hne⟩
  rw [List.take_add, hagree]

/-- The text behind its own broken beginning. -/
theorem exists_missed (h : ¬ Restartable p) :
    ∃ cs, p <:+: cs ∧ (run p start cs).seen = false := by
  obtain ⟨b, j, hb, hbj, hj, ⟨t, ht⟩, hne⟩ := exists_break h
  have hget : p[b]? = some p[b] := List.getElem?_eq_getElem (by omega)
  have hsplit : p.take b ++ p[b] :: p.drop (b + 1) = p := by
    rw [← List.drop_eq_getElem_cons (by omega), List.take_append_drop]
  refine ⟨p.take j ++ p[b] :: p.drop (b + 1), List.IsSuffix.isInfix ⟨t, ?_⟩, ?_⟩
  · rw [← ht, List.append_assoc, hsplit]
  · have hmiss : p[(⟨j, false⟩ : State).pos]? ≠ some p[b] := by
      rw [← hget]
      exact hne
    have hpos : (step p ⟨j, false⟩ p[b]).pos ≤ 1 := by
      rw [step_mismatch rfl hmiss]
      simp only
      split_ifs <;> omega
    rw [run_append, run_take hj]
    refine run_not_seen _ (s := step p ⟨j, false⟩ p[b]) (by rw [step_mismatch rfl hmiss]) ?_
    rw [List.length_drop]
    omega

/-- The matcher finds exactly the occurrences of the text in every stream if and
only if the text is restartable. -/
theorem seen_iff (hp : p ≠ []) :
    (∀ cs, (run p start cs).seen = true ↔ p <:+: cs) ↔ Restartable p := by
  constructor
  · intro hall
    by_contra hr
    obtain ⟨cs, hin, hmiss⟩ := exists_missed hr
    rw [(hall cs).mpr hin] at hmiss
    cases hmiss
  · intro hr cs
    have htr := tracks_run hr hp cs
    cases hs : (run p start cs).seen with
    | true => exact ⟨fun _ => htr.found hs, fun _ => rfl⟩
    | false => exact ⟨by rintro ⟨⟩, fun hin => absurd hin (htr.missing hs)⟩

end Missed

end Matcher
