import Mathlib.Data.List.DropRight

/-!
# Ring buffers

A ring of `cap` slots with the place of the next write and the number of slots in
use, which keeps the end of an unbounded history. The slots are read through a
function of their number, so any kind of array can stand behind it.
-/

namespace RingBuffer

set_option autoImplicit false

universe u

variable {α : Type u}

/-- The slots and the two counters keep the last `cap` elements of `history`: the
element number `k` stands in the slot `k % cap`. -/
structure Keeps (cap : Nat) (slot : Nat → α) (next count : Nat) (history : List α) : Prop where
  next_eq : next = history.length % cap
  count_eq : count = min history.length cap
  kept : ∀ k (hk : k < history.length), history.length ≤ k + cap → slot (k % cap) = history[k]

/-- The `n` elements before `next`, oldest first. -/
def last (cap : Nat) (slot : Nat → α) (next n : Nat) : List α :=
  (List.range n).map fun i => slot (((next + cap - n) % cap + i) % cap)

section Ring
variable {cap next count : Nat} {slot slot' : Nat → α} {history : List α}

theorem keeps_nil (cap : Nat) (slot : Nat → α) : Keeps cap slot 0 0 [] where
  next_eq := (Nat.zero_mod cap).symm
  count_eq := (Nat.zero_min cap).symm
  kept := fun _ hk => absurd hk (Nat.not_lt_zero _)

/-- Two elements less than `cap` apart are in different slots. -/
theorem mod_ne {a b : Nat} (hab : a < b) (hb : b < a + cap) : a % cap ≠ b % cap := by
  intro h
  have hdvd : cap ∣ b - a := Nat.dvd_of_mod_eq_zero (Nat.sub_mod_eq_zero_of_mod_eq h.symm)
  have hle : cap ≤ b - a := Nat.le_of_dvd (by omega) hdvd
  omega

/-- A write to the slot `next` keeps the history with the new element. -/
theorem Keeps.push (h : Keeps cap slot next count history) (hcap : 0 < cap) {x : α}
    (hx : slot' next = x) (hsame : ∀ k < cap, k ≠ next → slot' k = slot k) :
    Keeps cap slot' ((next + 1) % cap) (if count < cap then count + 1 else count)
      (history ++ [x]) where
  next_eq := by
    rw [h.next_eq, List.length_append, List.length_singleton, Nat.mod_add_mod]
  count_eq := by
    have hc := h.count_eq
    rw [List.length_append, List.length_singleton]
    split <;> omega
  kept := by
    intro k hk hlast
    rw [List.length_append, List.length_singleton] at hk hlast
    by_cases hnew : k = history.length
    · subst hnew
      rw [← h.next_eq, hx, List.getElem_concat_length rfl]
    · have hold : k < history.length := by omega
      have hne : k % cap ≠ next := by
        rw [h.next_eq]
        exact mod_ne hold (by omega)
      rw [hsame _ (Nat.mod_lt k hcap) hne, h.kept k hold (by omega), List.getElem_append_left hold]

/-- The slots that are read are those of the last `n` elements. -/
theorem index_eq {len n : Nat} (hlen : n ≤ len) (hcap : n ≤ cap) (i : Nat) :
    ((len % cap + cap - n) % cap + i) % cap = (len - n + i) % cap := by
  have hsplit : len % cap + cap - n + i + cap * (len / cap) = len - n + i + cap := by
    have := Nat.mod_add_div len cap
    omega
  calc ((len % cap + cap - n) % cap + i) % cap
      = (len % cap + cap - n + i) % cap := Nat.mod_add_mod _ _ _
    _ = (len % cap + cap - n + i + cap * (len / cap)) % cap :=
      (Nat.add_mul_mod_self_left _ _ _).symm
    _ = (len - n + i + cap) % cap := by rw [hsplit]
    _ = (len - n + i) % cap := Nat.add_mod_right _ _

/-- Reading `n` slots back from `next` gives the last `n` elements. -/
theorem Keeps.last_eq (h : Keeps cap slot next count history) {n : Nat} (hn : n ≤ count) :
    last cap slot next n = history.rtake n := by
  have hc := h.count_eq
  rw [List.rtake]
  apply List.ext_getElem
  · simp only [last, List.length_map, List.length_range, List.length_drop]
    omega
  · intro i h1 h2
    simp only [last, List.length_map, List.length_range] at h1
    simp only [last, List.getElem_map, List.getElem_range, List.getElem_drop]
    rw [h.next_eq, index_eq (by omega) (by omega)]
    exact h.kept _ (by omega) (by omega)

end Ring

/-- What every push keeps of a growing history holds after a list of pushes. -/
theorem foldl_keeps {σ : Type*} {push : σ → α → σ} {Holds : σ → List α → Prop} {s : σ}
    (step : ∀ {s : σ} {history : List α} (x : α),
      Holds s history → Holds (push s x) (history ++ [x]))
    (start : Holds s []) (xs : List α) : Holds (xs.foldl push s) xs := by
  have hrun : ∀ (s : σ) (history : List α), Holds s history →
      Holds (xs.foldl push s) (history ++ xs) := by
    induction xs with
    | nil =>
      intro s history h
      rwa [List.append_nil]
    | cons x xs ih =>
      intro s history h
      have hrest := ih (push s x) (history ++ [x]) (step x h)
      rwa [List.append_assoc, List.singleton_append] at hrest
  exact hrun s [] start

end RingBuffer
