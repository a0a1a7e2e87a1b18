import AiOsoc.Sim.Memory
import AiOsoc.Matcher
import Mathlib.Algebra.Group.Nat.Defs

/-!
# The expected text of the UART

The part of `npc/csrc/memory.cpp` that looks for a text in what is written to the
UART. In the debug build `commit_mmio_write` is called for every retired store;
in the other builds `write32` does the same on its own.
-/

namespace Sim

set_option autoImplicit false

/-- The fields of `Memory` for the UART; `out` is what `putchar` was called with. -/
structure Uart where
  expect : List (BitVec 8)
  expectPos : BitVec 32
  expectSeen : Bool
  eot : Bool
  out : List (BitVec 8)

namespace Uart
variable (u : Uart)

def setUartExpect (text : List (BitVec 8)) : Uart :=
  { u with expect := text, expectPos := 0#32, expectSeen := false }

/-- The matcher; the position is a `uint32_t`. -/
def matchChar (c : BitVec 8) : Uart :=
  if !u.expectSeen && !u.expect.isEmpty then
    if c = u.expect.getD u.expectPos.toNat 0#8 then
      let u := { u with expectPos := u.expectPos + 1#32 }
      if u.expectPos.toNat = u.expect.length then { u with expectSeen := true } else u
    else { u with expectPos := if c = u.expect.getD 0 0#8 then 1#32 else 0#32 }
  else u

def putChar (c : BitVec 8) : Uart :=
  let u := u.matchChar c
  if c = 0x04#8 then { u with eot := true } else { u with out := u.out ++ [c] }

def commitMmioWrite (addr data : BitVec 32) (wmask : BitVec 8) : Uart :=
  if addr = uartBase ∧ wmask.getLsbD 0 = true then u.putChar (data.setWidth 8) else u

/-- `write32` without `NPC_DEBUG`, as far as the UART goes. -/
def write32 (addr data : BitVec 32) (wmask : BitVec 8) : Uart :=
  if (uartBase ≤ addr ∧ addr < uartEnd) ∨ (clintBase ≤ addr ∧ addr < clintEnd) then
    if addr = uartBase ∧ wmask.getLsbD 0 = true then u.putChar (data.setWidth 8) else u
  else u

/-- Both builds look for the text in the same way. -/
theorem write32_eq (addr data : BitVec 32) (wmask : BitVec 8) :
    u.write32 addr data wmask = u.commitMmioWrite addr data wmask := by
  unfold write32 commitMmioWrite
  by_cases h : addr = uartBase ∧ wmask.getLsbD 0 = true
  · have hin : uartBase ≤ addr ∧ addr < uartEnd := by
      rw [h.1]
      decide
    rw [if_pos (Or.inl hin)]
  · rw [if_neg h, ite_self]

end Uart

/-- A call of `commit_mmio_write`. -/
structure MmioWrite where
  addr : BitVec 32
  data : BitVec 32
  wmask : BitVec 8

/-- The byte a call writes to the UART. -/
def MmioWrite.byte (w : MmioWrite) : Option (BitVec 8) :=
  if w.addr = uartBase ∧ w.wmask.getLsbD 0 = true then some (w.data.setWidth 8) else none

def Uart.commits (u : Uart) (ws : List MmioWrite) : Uart :=
  ws.foldl (fun u w => u.commitMmioWrite w.addr w.data w.wmask) u

/-! ## The matcher -/

namespace Uart

theorem commitMmioWrite_eq (u : Uart) (w : MmioWrite) :
    u.commitMmioWrite w.addr w.data w.wmask = (w.byte.elim u u.putChar) := by
  unfold commitMmioWrite MmioWrite.byte
  split_ifs <;> rfl

/-- The calls that write no byte to the UART change nothing. -/
theorem commits_eq (u : Uart) (ws : List MmioWrite) :
    u.commits ws = (ws.filterMap MmioWrite.byte).foldl putChar u := by
  induction ws generalizing u with
  | nil => rfl
  | cons w ws ih =>
    show (u.commitMmioWrite w.addr w.data w.wmask).commits ws = _
    rw [ih, commitMmioWrite_eq]
    cases hb : w.byte with
    | none => rw [List.filterMap_cons_none hb]; rfl
    | some c => rw [List.filterMap_cons_some hb]; rfl

@[simp] theorem putChar_expect (u : Uart) (c : BitVec 8) :
    (u.putChar c).expect = (u.matchChar c).expect := by
  unfold putChar
  split_ifs <;> rfl

@[simp] theorem putChar_pos (u : Uart) (c : BitVec 8) :
    (u.putChar c).expectPos = (u.matchChar c).expectPos := by
  unfold putChar
  split_ifs <;> rfl

@[simp] theorem putChar_seen (u : Uart) (c : BitVec 8) :
    (u.putChar c).expectSeen = (u.matchChar c).expectSeen := by
  unfold putChar
  split_ifs <;> rfl

/-- The fields hold the state of the matcher for the text. -/
structure Refines (text : List (BitVec 8)) (u : Uart) (s : Matcher.State) : Prop where
  expect : u.expect = text
  seen : u.expectSeen = s.seen
  pos : u.expectPos.toNat = s.pos
  inside : s.seen = false → s.pos < text.length

theorem getD_eq_iff {text : List (BitVec 8)} {k : Nat} (hk : k < text.length) (c : BitVec 8) :
    c = text.getD k 0#8 ↔ text[k]? = some c := by
  rw [List.getD_eq_getElem?_getD, List.getElem?_eq_getElem hk, Option.getD_some, Option.some.injEq,
    eq_comm]

section Step
variable {text : List (BitVec 8)} {u : Uart} {s : Matcher.State}

theorem refines_start (u : Uart) (hne : text ≠ []) :
    Refines text (u.setUartExpect text) Matcher.start where
  expect := rfl
  seen := rfl
  pos := rfl
  inside _ := List.length_pos_iff.mpr hne

theorem Refines.matchChar (hlen : text.length < 2 ^ 32) (h : Refines text u s) (c : BitVec 8) :
    Refines text (u.matchChar c) (Matcher.step text s c) := by
  obtain ⟨hexp, hseen, hpos, hin⟩ := h
  cases hs : s.seen with
  | true =>
    rw [hs] at hseen
    rw [Matcher.step_seen hs, Uart.matchChar, hseen]
    exact ⟨hexp, hseen.trans hs.symm, hpos, hin⟩
  | false =>
    have hlt := hin hs
    rw [hs] at hseen
    have hgo : (!u.expectSeen && !u.expect.isEmpty) = true := by
      rw [hseen, hexp]
      simp only [Bool.not_false, Bool.true_and, Bool.not_eq_true', List.isEmpty_eq_false_iff]
      exact List.length_pos_iff.mp (by omega)
    rw [Uart.matchChar, if_pos hgo, hexp, hpos]
    simp only [getD_eq_iff hlt, getD_eq_iff (Nat.zero_lt_of_lt hlt)]
    by_cases hc : text[s.pos]? = some c
    · have hnext : (u.expectPos + 1#32).toNat = s.pos + 1 := by
        rw [BitVec.toNat_add, hpos, BitVec.toNat_ofNat]
        omega
      rw [if_pos hc, Matcher.step_match hs hc, hnext]
      split_ifs with hend
      · exact ⟨rfl, (beq_iff_eq.mpr hend).symm, hnext, fun hf => absurd hend (by simpa using hf)⟩
      · refine ⟨rfl, hseen.trans (beq_eq_false_iff_ne.mpr hend).symm, hnext, fun _ => ?_⟩
        simp only
        omega
    · rw [if_neg hc, Matcher.step_mismatch hs hc]
      refine ⟨rfl, hseen, ?_, fun _ => ?_⟩
      · simp only
        split_ifs <;> rfl
      · simp only
        split_ifs with h0
        · have hne : s.pos ≠ 0 := fun hz => hc (by rw [hz]; exact h0)
          omega
        · omega

theorem Refines.putChar (hlen : text.length < 2 ^ 32) (h : Refines text u s) (c : BitVec 8) :
    Refines text (u.putChar c) (Matcher.step text s c) := by
  obtain ⟨hexp, hseen, hpos, hin⟩ := h.matchChar hlen c
  exact ⟨by simpa using hexp, by simpa using hseen, by simpa using hpos, hin⟩

theorem Refines.run (hlen : text.length < 2 ^ 32) (h : Refines text u s) (cs : List (BitVec 8)) :
    Refines text (cs.foldl Uart.putChar u) (Matcher.run text s cs) := by
  induction cs generalizing u s with
  | nil => exact h
  | cons c cs ih => exact ih (h.putChar hlen c)

/-- The position never reaches the end of a text that is too long for it. -/
theorem putChar_long (hlen : 2 ^ 32 ≤ u.expect.length) (hseen : u.expectSeen = false)
    (c : BitVec 8) : (u.putChar c).expectSeen = false ∧ (u.putChar c).expect = u.expect := by
  rw [putChar_seen, putChar_expect]
  have hne : (u.expectPos + 1#32).toNat ≠ u.expect.length := by
    have := (u.expectPos + 1#32).isLt
    omega
  simp only [Uart.matchChar, hne, if_false]
  split_ifs <;> exact ⟨hseen, rfl⟩

theorem run_long (cs : List (BitVec 8)) {u : Uart} (hlen : 2 ^ 32 ≤ u.expect.length)
    (hseen : u.expectSeen = false) : (cs.foldl Uart.putChar u).expectSeen = false := by
  induction cs generalizing u with
  | nil => exact hseen
  | cons c cs ih =>
    obtain ⟨hs, he⟩ := putChar_long hlen hseen c
    exact ih (by rw [he]; exact hlen) hs

end Step

/-! ## When the text is found -/

/-- The bytes the calls write to the UART. -/
def written (ws : List MmioWrite) : List (BitVec 8) := ws.filterMap MmioWrite.byte

/-- Calls that write the given bytes. -/
def writesOf (cs : List (BitVec 8)) : List MmioWrite :=
  cs.map fun c => ⟨uartBase, c.setWidth 32, 1#8⟩

theorem written_writesOf (cs : List (BitVec 8)) : written (writesOf cs) = cs := by
  rw [written, writesOf, List.filterMap_map]
  conv => rhs; rw [← List.filterMap_some (l := cs)]
  congr 1
  funext c
  simp [MmioWrite.byte]

/-- After every sequence of writes `uart_expect_seen` says whether the expected
text occurred in the bytes written, if and only if the position can count its
characters and, wherever its first character stands again in it, the text goes on
from there as it began. -/
theorem uart_expect_iff (u : Uart) (text : List (BitVec 8)) (hne : text ≠ []) :
    (∀ ws, ((u.setUartExpect text).commits ws).expectSeen = true ↔ text <:+: written ws) ↔
      text.length < 2 ^ 32 ∧ Matcher.Restartable text := by
  have hrun : ∀ cs, text.length < 2 ^ 32 →
      (cs.foldl putChar (u.setUartExpect text)).expectSeen =
        (Matcher.run text Matcher.start cs).seen := by
    intro cs hlen
    exact ((refines_start u hne).run hlen cs).seen
  constructor
  · intro hall
    have hlen : text.length < 2 ^ 32 := by
      by_contra hlong
      have hseen := (hall (writesOf text)).mpr (by rw [written_writesOf])
      rw [commits_eq, run_long _ (Nat.le_of_not_lt hlong) rfl] at hseen
      cases hseen
    refine ⟨hlen, (Matcher.seen_iff hne).mp fun cs => ?_⟩
    have := hall (writesOf cs)
    rwa [commits_eq, ← written, written_writesOf, hrun cs hlen] at this
  · rintro ⟨hlen, hr⟩ ws
    rw [commits_eq, hrun _ hlen]
    exact (Matcher.seen_iff hne).mpr hr _

def ascii (text : String) : List (BitVec 8) := text.toList.map fun c => BitVec.ofNat 8 c.toNat

/-- Before any text is expected. -/
def idle : Uart := ⟨[], 0#32, false, false, []⟩

/-- The text `ok` does not begin again inside itself. -/
theorem uart_expect_ok :
    ascii "ok" ≠ [] ∧
      ∀ ws, ((idle.setUartExpect (ascii "ok")).commits ws).expectSeen = true ↔
        ascii "ok" <:+: written ws :=
  ⟨by decide, (uart_expect_iff idle (ascii "ok") (by decide)).mpr ⟨by decide, by decide⟩⟩

/-- `aab` is not found in `aaab`. -/
theorem uart_expect_missed :
    ascii "aab" <:+: written (writesOf (ascii "aaab")) ∧
      ((idle.setUartExpect (ascii "aab")).commits (writesOf (ascii "aaab"))).expectSeen = false :=
  ⟨by decide, by decide⟩

end Uart

end Sim
