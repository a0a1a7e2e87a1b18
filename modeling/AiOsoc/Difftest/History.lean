import AiOsoc.Difftest.Reference
import AiOsoc.RingBuffer

/-!
# The recent history of commits

The two rings that keep the last commit events: `CommitRing` of
`npc/csrc/main.cpp`, whose size is an argument, and the ring of 64 events in
`nemu/src/utils/state.c`. A ring that can be allocated is far smaller than the
range of `size_t`, so indices are numbers.
-/

namespace Sim

set_option autoImplicit false

open Difftest

structure CommitRing where
  entries : List CommitEvent
  next : Nat
  count : Nat
  next_lt : next < entries.length

namespace CommitRing

def new (size : Nat) : CommitRing where
  entries := List.replicate (max size 1) Nemu.noEvent
  next := 0
  count := 0
  next_lt := by
    rw [List.length_replicate]
    omega

variable (r : CommitRing)

theorem pos : 0 < r.entries.length := Nat.lt_of_le_of_lt (Nat.zero_le _) r.next_lt

def push (ev : CommitEvent) : CommitRing where
  entries := r.entries.set r.next ev
  next := (r.next + 1) % r.entries.length
  count := if r.count < r.entries.length then r.count + 1 else r.count
  next_lt := by
    rw [List.length_set]
    exact Nat.mod_lt _ r.pos

/-- `entries_[i % entries_.size()]`. -/
def entry (i : Nat) : CommitEvent :=
  r.entries.get ⟨i % r.entries.length, Nat.mod_lt i r.pos⟩

def last (n : Nat) : List CommitEvent :=
  let n := if n = 0 ∨ n > r.count then r.count else n
  let first := (r.next + r.entries.length - n) % r.entries.length
  (List.range n).map fun i => r.entry (first + i)

end CommitRing

end Sim

/-! ## What the rings keep -/

namespace Sim.CommitRing

set_option autoImplicit false

open Difftest

/-- The ring holds the end of `history`. -/
def Holds (r : CommitRing) (history : List CommitEvent) : Prop :=
  RingBuffer.Keeps r.entries.length r.entry r.next r.count history

section Ring
variable {r : CommitRing} {history : List CommitEvent}

theorem holds_new (size : Nat) : (new size).Holds [] := RingBuffer.keeps_nil _ _

theorem Holds.push (h : r.Holds history) (ev : CommitEvent) :
    (r.push ev).Holds (history ++ [ev]) := by
  have hlen : (r.push ev).entries.length = r.entries.length := List.length_set
  have hentry : ∀ k < r.entries.length,
      (r.push ev).entry k = if k = r.next then ev else r.entry k := by
    intro k hk
    have hmod : k % r.entries.length = k := Nat.mod_eq_of_lt hk
    simp only [entry, CommitRing.push, List.length_set, List.get_eq_getElem, List.getElem_set, hmod,
      eq_comm]
  unfold Holds
  rw [hlen]
  refine RingBuffer.Keeps.push h r.pos ?_ ?_
  · rw [hentry r.next r.next_lt, if_pos rfl]
  · intro k hk hne
    rw [hentry k hk, if_neg hne]

theorem Holds.last_eq (h : r.Holds history) (n : Nat) :
    r.last n = history.rtake (if n = 0 ∨ n > r.count then r.count else n) := by
  have hn : (if n = 0 ∨ n > r.count then r.count else n) ≤ r.count := by
    split <;> omega
  rw [← RingBuffer.Keeps.last_eq h hn]
  apply List.map_congr_left
  intro i _
  simp only [entry, Nat.mod_mod]

end Ring

end Sim.CommitRing

namespace Nemu

set_option autoImplicit false

open Difftest

def CommitRing.Holds (r : CommitRing) (history : List CommitEvent) : Prop :=
  RingBuffer.Keeps 64 r.slot r.next.val r.count history

section Ring
variable {r : CommitRing} {history : List CommitEvent}

theorem emptyRing_holds : emptyRing.Holds [] := RingBuffer.keeps_nil _ _

theorem CommitRing.Holds.record (h : r.Holds history) (ev : CommitEvent) :
    (commitEventRecord r ev).Holds (history ++ [ev]) := by
  have hnext : (commitEventRecord r ev).next.val = (r.next.val + 1) % 64 := Fin.val_add r.next 1
  have hslot : ∀ k < 64,
      (commitEventRecord r ev).slot k = if k = r.next.val then ev else r.slot k := by
    intro k hk
    have hval : (Fin.ofNat 64 k).val = k := Nat.mod_eq_of_lt hk
    simp only [slot, commitEventRecord, Function.update_apply, Fin.ext_iff, hval]
  unfold Holds
  rw [hnext]
  refine RingBuffer.Keeps.push h (by decide) ?_ ?_
  · rw [hslot _ r.next.isLt, if_pos rfl]
  · intro k hk hne
    rw [hslot k hk, if_neg hne]

theorem CommitRing.Holds.copyLast_eq (h : r.Holds history) (n : Nat) :
    commitEventCopyLast r n = history.rtake (min n r.count) := by
  have hmin : (if r.count < n then r.count else n) = min n r.count := by
    split <;> omega
  rw [← RingBuffer.Keeps.last_eq h (Nat.min_le_right n r.count), ← hmin]
  apply List.map_congr_left
  intro i _
  simp only [CommitRing.slot, Fin.ofNat, Nat.mod_mod]

theorem CommitRing.Holds.getLast_eq (h : r.Holds history) :
    commitEventGetLast r = history.getLast? := by
  have hc := h.count_eq
  rcases List.eq_nil_or_concat' history with rfl | ⟨before, ev, rfl⟩
  · rw [commitEventGetLast, if_pos (by simpa using hc), List.getLast?_nil]
  · rw [List.length_append, List.length_singleton] at hc
    have hprev : r.next - 1 = Fin.ofNat 64 (before.length % 64) := by
      have hnext := h.next_eq
      rw [List.length_append, List.length_singleton] at hnext
      apply Fin.ext
      rw [Fin.val_sub, hnext]
      show (64 - 1 + _) % 64 = before.length % 64 % 64
      omega
    have hlast := h.kept before.length (by simp) (by simp)
    rw [List.getElem_concat_length rfl] at hlast
    rw [commitEventGetLast, if_neg (by omega), hprev, List.getLast?_concat]
    exact congrArg some hlast

end Ring

end Nemu

namespace Difftest

set_option autoImplicit false

/-- The rings after the events have been recorded, the first one first. -/
def simRing (size : Nat) (events : List CommitEvent) : Sim.CommitRing :=
  events.foldl Sim.CommitRing.push (Sim.CommitRing.new size)

def nemuRing (events : List CommitEvent) : Nemu.CommitRing :=
  events.foldl Nemu.commitEventRecord Nemu.emptyRing

theorem simRing_length (size : Nat) (events : List CommitEvent) :
    (simRing size events).entries.length = max size 1 := by
  have hrun : ∀ r : Sim.CommitRing,
      (events.foldl Sim.CommitRing.push r).entries.length = r.entries.length := by
    induction events with
    | nil => exact fun r => rfl
    | cons ev events ih =>
      intro r
      rw [List.foldl_cons, ih (r.push ev)]
      exact List.length_set
  exact (hrun _).trans List.length_replicate

theorem simRing_holds (size : Nat) (events : List CommitEvent) :
    (simRing size events).Holds events :=
  RingBuffer.foldl_keeps (fun ev h => h.push ev) (Sim.CommitRing.holds_new size) events

theorem nemuRing_holds (events : List CommitEvent) : (nemuRing events).Holds events :=
  RingBuffer.foldl_keeps (fun ev h => h.record ev) Nemu.emptyRing_holds events

/-- Both rings return the true recent history, oldest first: after any events and
for any `n`, the last `n` of them, or as many as there are and fit. For `n = 0`
the ring of the simulator returns all it keeps. -/
theorem rings_return_history (events : List CommitEvent) (size n : Nat) :
    (simRing size events).last n =
      events.rtake (if n = 0 then min (max size 1) events.length
        else min n (min (max size 1) events.length)) ∧
    Nemu.commitEventCopyLast (nemuRing events) n = events.rtake (min n (min 64 events.length)) ∧
    Nemu.commitEventGetLast (nemuRing events) = events.getLast? := by
  have hsim := simRing_holds size events
  have hnemu := nemuRing_holds events
  have hcount := hsim.count_eq
  rw [simRing_length] at hcount
  refine ⟨?_, ?_, hnemu.getLast_eq⟩
  · rw [hsim.last_eq, hcount]
    congr 1
    split_ifs <;> omega
  · rw [hnemu.copyLast_eq, hnemu.count_eq, Nat.min_comm events.length]

end Difftest
