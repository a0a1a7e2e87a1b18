import Mathlib.Logic.Function.Basic
import Mathlib.Order.Basic
import Mathlib.Data.Nat.Find

/-!
# Synchronous machines and their runs

A clocked machine is a step function on registers and sampled inputs. A run
feeds one input a cycle, for ever; what holds of every finite execution is what
holds at every cycle of every run. Nothing here knows what the machine computes.
-/

namespace Clocked

set_option autoImplicit false

universe u v w

variable {S : Type u} {I : Type v} {E : Type w}

/-- The registers at the start of cycle `n`. -/
def state (step : S → I → S) (s : S) (input : Nat → I) : Nat → S
  | 0 => s
  | n + 1 => step (state step s input n) (input n)

/-- What the cycles before `n` emitted, oldest first. -/
def log (emit : Nat → List E) : Nat → List E
  | 0 => []
  | n + 1 => log emit n ++ emit n

/-- What is kept by every cycle that is not the last survives to the last one. -/
theorem stays {P D : Nat → Prop} {a b : Nat} (hab : a ≤ b) (start : P a)
    (busy : ∀ n, a ≤ n → n < b → ¬ D n)
    (next : ∀ n, P n → ¬ D n → P (n + 1)) : P b := by
  induction hab with
  | refl => exact start
  | @step b hab ih =>
    have hb : P b := ih (fun n h1 h2 => busy n h1 (Nat.lt_succ_of_lt h2))
    exact next b hb (busy b hab (Nat.lt_succ_self b))

/-- What is kept until `D` happens still holds when it happens. -/
theorem leads {P D : Nat → Prop} {a : Nat} (start : P a) (next : ∀ n, P n → ¬ D n → P (n + 1))
    (ev : ∃ m, a ≤ m ∧ D m) : ∃ b, a ≤ b ∧ P b ∧ D b := by
  classical
  obtain ⟨hle, hd⟩ := Nat.find_spec ev
  refine ⟨Nat.find ev, hle, ?_, hd⟩
  refine stays hle start ?_ next
  intro n hn hlt hdn
  exact Nat.find_min ev hlt ⟨hn, hdn⟩

section Window
variable {p : Nat → Bool} {a b : Nat}

/-- `p` in none of the cycles `a ≤ m < b`. -/
def Never (p : Nat → Bool) (a b : Nat) : Prop := ∀ m, a ≤ m → m < b → p m = false

/-- `p` in exactly one of the cycles `a ≤ m < b`. -/
def Once (p : Nat → Bool) (a b : Nat) : Prop :=
  ∃ k, a ≤ k ∧ k < b ∧ ∀ m, a ≤ m → m < b → (p m = true ↔ m = k)

theorem never_nil (p : Nat → Bool) (a : Nat) : Never p a a := by
  intro m h1 h2
  omega

theorem Never.snoc (h : Never p a b) (hb : p b = false) : Never p a (b + 1) := by
  intro m h1 h2
  rcases Nat.lt_succ_iff_lt_or_eq.mp h2 with hlt | rfl
  · exact h m h1 hlt
  · exact hb

theorem Never.fire (h : Never p a b) (hab : a ≤ b) (hb : p b = true) : Once p a (b + 1) := by
  refine ⟨b, hab, Nat.lt_succ_self b, ?_⟩
  intro m h1 h2
  rcases Nat.lt_succ_iff_lt_or_eq.mp h2 with hlt | rfl
  · rw [h m h1 hlt]
    constructor
    · intro hf
      exact absurd hf (by decide)
    · intro he
      omega
  · exact ⟨fun _ => rfl, fun _ => hb⟩

theorem Never.not_once (h : Never p a b) : ¬ Once p a b := by
  rintro ⟨k, h1, h2, hk⟩
  have hp := (hk k h1 h2).mpr rfl
  rw [h k h1 h2] at hp
  cases hp

theorem Once.snoc (h : Once p a b) (hb : p b = false) : Once p a (b + 1) := by
  obtain ⟨k, h1, h2, hk⟩ := h
  refine ⟨k, h1, Nat.lt_succ_of_lt h2, ?_⟩
  intro m hm hlt
  rcases Nat.lt_succ_iff_lt_or_eq.mp hlt with hlt | rfl
  · exact hk m hm hlt
  · rw [hb]
    constructor
    · intro hf
      exact absurd hf (by decide)
    · intro he
      omega

/-- The flag `d` tells whether `p` has been seen since `a`, and it has not been
seen twice. -/
def Flags (p : Nat → Bool) (d : Bool) (a b : Nat) : Prop := if d then Once p a b else Never p a b

theorem Flags.next {d : Bool} (h : Flags p d a b) (hab : a ≤ b) (hd : d = true → p b = false) :
    Flags p (d || p b) a (b + 1) := by
  cases d with
  | true => exact Once.snoc h (hd rfl)
  | false =>
    cases hb : p b with
    | true => exact Never.fire h hab hb
    | false => exact Never.snoc h hb

theorem Flags.once_iff {d : Bool} (h : Flags p d a b) : Once p a b ↔ d = true := by
  cases d with
  | true => exact ⟨fun _ => rfl, fun _ => h⟩
  | false => exact ⟨fun ho => absurd ho (Never.not_once h), by rintro ⟨⟩⟩

end Window

section Progress
variable {P Q R D : Nat → Prop}

/-- `P` is followed by `Q`, in the same cycle or in a later one. -/
def LeadsTo (P Q : Nat → Prop) : Prop := ∀ n, P n → ∃ m, n ≤ m ∧ Q m

theorem LeadsTo.trans (hpq : LeadsTo P Q) (hqr : LeadsTo Q R) : LeadsTo P R := by
  intro n hp
  obtain ⟨m, hnm, hq⟩ := hpq n hp
  obtain ⟨k, hmk, hr⟩ := hqr m hq
  exact ⟨k, Nat.le_trans hnm hmk, hr⟩

/-- `P` waits for `D`, and the edge at which `D` holds ends the wait. -/
theorem LeadsTo.wait (ev : LeadsTo P D) (keep : ∀ n, P n → ¬ D n → P (n + 1))
    (done : ∀ n, P n → D n → Q (n + 1)) : LeadsTo P Q := by
  intro n hp
  obtain ⟨m, hnm, hpm, hd⟩ := leads hp keep (ev n hp)
  exact ⟨m + 1, Nat.le_succ_of_le hnm, done m hpm hd⟩

/-- `P` is followed by `Q` within `b` cycles. -/
def Within (b : Nat) (P Q : Nat → Prop) : Prop := ∀ n, P n → ∃ m, n ≤ m ∧ m ≤ n + b ∧ Q m

theorem Within.trans {b c : Nat} (hpq : Within b P Q) (hqr : Within c Q R) :
    Within (b + c) P R := by
  intro n hp
  obtain ⟨m, hnm, hmb, hq⟩ := hpq n hp
  obtain ⟨k, hmk, hkc, hr⟩ := hqr m hq
  exact ⟨k, Nat.le_trans hnm hmk, by omega, hr⟩

theorem Within.mono {b c : Nat} (h : Within b P Q) (hbc : b ≤ c) : Within c P Q := by
  intro n hp
  obtain ⟨m, hnm, hmb, hq⟩ := h n hp
  exact ⟨m, hnm, by omega, hq⟩

end Progress

section Simulation
variable {A : Type u}

/-- A finite execution of a labelled transition relation. -/
inductive Trace (next : A → E → A → Prop) : A → List E → A → Prop where
  | nil (a : A) : Trace next a [] a
  | snoc {a b c : A} {es : List E} {e : E} :
      Trace next a es b → next b e c → Trace next a (es ++ [e]) c

theorem Trace.append {next : A → E → A → Prop} {a b c : A} {es fs : List E}
    (h : Trace next a es b) (g : Trace next b fs c) : Trace next a (es ++ fs) c := by
  induction g with
  | nil => simpa using h
  | snoc _ hn ih =>
    rw [← List.append_assoc]
    exact .snoc ih hn

/-- Forward simulation: if every cycle of the run is matched by the labels it
emits, the whole log is an execution of the abstract machine. -/
theorem simulation {next : A → E → A → Prop} {emit : Nat → List E} (abs : Nat → A)
    (matched : ∀ n, Trace next (abs n) (emit n) (abs (n + 1))) (n : Nat) :
    Trace next (abs 0) (log emit n) (abs n) := by
  induction n with
  | zero => exact .nil _
  | succ n ih => exact ih.append (matched n)

end Simulation

end Clocked
