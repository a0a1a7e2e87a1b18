import AiOsoc.Klib.Printf

/-!
# What `printf_backend` may touch

The format is read up to its NUL and no further, whatever conversion the string
ends in, and the digits of a number stay inside `buffer`.
-/

namespace Klib

set_option autoImplicit false

attribute [local instance] byteLawful

/-! ## Bytes behind the format -/

section Behind
variable {fmt rest : List Byte} {spec v : Spec} (junk : List Byte)

theorem parseFlags_append (h : parseFlags spec fmt = some (v, rest)) :
    parseFlags spec (fmt ++ junk) = some (v, rest ++ junk) := by
  induction fmt generalizing spec with
  | nil => cases h
  | cons c fmt ih =>
    simp only [List.cons_append, parseFlags] at h ⊢
    split_ifs at h ⊢
    · exact ih h
    · exact ih h
    · exact ih h
    · exact ih h
    · exact ih h
    · cases h
      rfl

theorem parseWidth_append (h : parseWidth spec fmt = some (v, rest)) :
    parseWidth spec (fmt ++ junk) = some (v, rest ++ junk) := by
  induction fmt generalizing spec with
  | nil => cases h
  | cons c fmt ih =>
    simp only [List.cons_append, parseWidth] at h ⊢
    split_ifs at h ⊢
    · exact ih h
    · cases h
      rfl

theorem skipDigits_append (h : skipDigits fmt = some rest) :
    skipDigits (fmt ++ junk) = some (rest ++ junk) := by
  induction fmt with
  | nil => cases h
  | cons c fmt ih =>
    simp only [List.cons_append, skipDigits] at h ⊢
    split_ifs at h ⊢
    · exact ih h
    · cases h
      rfl

theorem skipPrecision_append (h : skipPrecision fmt = some rest) :
    skipPrecision (fmt ++ junk) = some (rest ++ junk) := by
  cases fmt with
  | nil => cases h
  | cons c fmt =>
    simp only [List.cons_append, skipPrecision] at h ⊢
    split_ifs at h ⊢
    · exact skipDigits_append junk h
    · cases h
      rfl

theorem parseLength_append (h : parseLength spec fmt = some (v, rest)) :
    parseLength spec (fmt ++ junk) = some (v, rest ++ junk) := by
  induction fmt generalizing spec with
  | nil => cases h
  | cons c fmt ih =>
    simp only [List.cons_append, parseLength] at h ⊢
    split_ifs at h ⊢
    · exact ih h
    · exact ih h
    · cases h
      rfl

theorem parseSpec_append (h : parseSpec fmt = some (v, rest)) :
    parseSpec (fmt ++ junk) = some (v, rest ++ junk) := by
  simp only [parseSpec, Option.bind_eq_bind, Option.bind_eq_some_iff] at h
  obtain ⟨⟨spec1, fmt1⟩, h1, ⟨spec2, fmt2⟩, h2, fmt3, h3, h4⟩ := h
  simp only [parseSpec, parseFlags_append junk h1, parseWidth_append junk h2,
    skipPrecision_append junk h3, parseLength_append junk h4, Option.bind_eq_bind,
    Option.bind_some]

end Behind

/-- A loop that returns has decided everything from the bytes it was given. -/
theorem printfLoop_append {turns more : Nat} {st st' : PrintfState} {fmt : List Byte}
    {ap : List Arg} (junk : List Byte) (h : printfLoop turns st fmt ap = some st')
    (hle : turns ≤ more) : printfLoop more st (fmt ++ junk) ap = some st' := by
  induction turns generalizing more st fmt ap with
  | zero => cases h
  | succ turns ih =>
    obtain ⟨more, rfl⟩ : ∃ k, more = k + 1 := ⟨more - 1, by omega⟩
    have hle' : turns ≤ more := Nat.le_of_succ_le_succ hle
    cases fmt with
    | nil => cases h
    | cons c fmt =>
      simp only [List.cons_append, printfLoop] at h ⊢
      split_ifs at h ⊢
      · exact h
      · exact ih h hle'
      · cases hs : parseSpec fmt with
        | none =>
          rw [hs] at h
          cases h
        | some r =>
          obtain ⟨spec, rest⟩ := r
          rw [hs] at h
          rw [parseSpec_append junk hs]
          cases rest with
          | nil => cases h
          | cons conv rest =>
            simp only [List.cons_append] at h ⊢
            split_ifs at h ⊢
            · exact h
            · cases hc : printfConvert st spec conv ap with
              | none =>
                rw [hc] at h
                cases h
              | some r =>
                rw [hc] at h
                exact ih h hle'

/-! ## The digit buffer -/

theorem printfDigits_length {base n : BitVec 64} {upper : Bool} {room : Nat}
    {buffer digits : List Byte} (h : printfDigits base upper room n buffer = some digits) :
    digits.length ≤ room + buffer.length := by
  induction room generalizing n buffer with
  | zero => cases h
  | succ room ih =>
    simp only [printfDigits] at h
    split_ifs at h
    · cases h
      simp only [List.length_cons]
      omega
    · have hl := ih h
      simp only [List.length_cons] at hl
      omega

/-- A 64-bit number has at most 22 digits in the bases in use. -/
theorem printfDigits_room {base : BitVec 64} (upper : Bool) (hb : 8 ≤ base.toNat) (n : BitVec 64) :
    ∃ digits, printfDigits base upper 32 n [] = some digits ∧ digits.length ≤ 22 := by
  have hn : n.toNat < base.toNat ^ (21 + 1) := by
    calc n.toNat < 2 ^ 64 := n.isLt
      _ ≤ 8 ^ 22 := by decide
      _ ≤ base.toNat ^ 22 := Nat.pow_le_pow_left hb 22
  have hroom := printfDigits_eq upper (by omega) 21 n [] hn
  refine ⟨_, printfDigits_fits upper hb n, ?_⟩
  rw [List.append_nil] at hroom
  exact printfDigits_length hroom

/-- For every format and the arguments it takes: `printf_backend` returns after at most as
many turns as the format has bytes; it returns the same whatever bytes stand behind the
NUL; and no number overruns the 32 places of `buffer`. -/
theorem printfBackend_memory_safe (fmt : CString) (ap : List Arg) (h : Supplies fmt ap)
    (st : PrintfState) :
    (∃ st', printfBackend st fmt ap = some st' ∧
      ∀ (junk : List Byte) (turns : Nat), fmt.bytes.length ≤ turns →
        printfLoop turns st (fmt.bytes ++ junk) ap = some st') ∧
    ∀ base ∈ [8#64, 10#64, 16#64], ∀ (n : BitVec 64) (upper : Bool),
      ∃ digits, printfDigits base upper 32 n [] = some digits ∧ digits.length ≤ 22 := by
  obtain ⟨cs, hcs⟩ := printfBackend_emits h
  refine ⟨⟨_, hcs st, ?_⟩, ?_⟩
  · intro junk turns hturns
    exact printfLoop_append junk (hcs st) hturns
  · intro base hb n upper
    refine printfDigits_room upper ?_ n
    simp only [List.mem_cons, List.not_mem_nil, or_false] at hb
    rcases hb with rfl | rfl | rfl <;> decide

/-- A format that ends inside its second conversion. -/
def danglingFmt : CString := ⟨"%d%-5.3l".toList.map ch, by decide⟩

theorem printfBackend_memory_safe_dangling :
    let st : PrintfState := ⟨[], true, [], 0#32, -1#32⟩
    Supplies danglingFmt [.int 7#32] ∧
      ∃ st', printfBackend st danglingFmt [.int 7#32] = some st' ∧ st'.sent = [ch '7'] ∧
        printfLoop 100 st (danglingFmt.bytes ++ [ch 's', ch '!', 0#8]) [.int 7#32] = some st' := by
  intro st
  have hs : Supplies danglingFmt [.int 7#32] := by decide +kernel
  have hval : printfBackend st danglingFmt [.int 7#32] =
      some ⟨[], true, [ch '7'], 1#32, -1#32⟩ := by decide +kernel
  obtain ⟨⟨st', hrun, hjunk⟩, -⟩ := printfBackend_memory_safe danglingFmt [.int 7#32] hs st
  rw [hval] at hrun
  cases hrun
  exact ⟨hs, _, hval, rfl, hjunk _ 100 (by decide)⟩

end Klib
