import AiOsoc.Klib.Field
import AiOsoc.Klib.Stdlib
import Mathlib.Data.List.TakeWhile

/-!
# Reading numbers

What the `strto` functions make of a text, in terms of its digits: they undo
`sprintf`, and they accept the subject sequences of the C standard except where
the scanner does not step back.
-/

namespace Klib

set_option autoImplicit false

attribute [local instance] byteLawful

/-! ## Digits -/

/-- The digit a character stands for, in upper or lower case. -/
def digitOf (c : Byte) : Option Nat :=
  (List.range 36).find? fun d => c == digitText false d || c == digitText true d

/-- A digit of the base. -/
def validDigit (b : Nat) (c : Byte) : Bool := (digitOf c).any (· < b)

/-- The value of a digit. -/
def digitNum (c : Byte) : Nat := (digitOf c).getD 0

theorem digitOf_digitText : ∀ d < 36, ∀ upper, digitOf (digitText upper d) = some d := by
  decide +kernel

theorem digitValue_digitText : ∀ d < 36, ∀ upper, digitValue (digitText upper d) = (d : Int) := by
  decide +kernel

theorem digitText_digitValue : ∀ c : Byte, digitValue c = -1 ∨
    (digitValue c).toNat < 36 ∧ ∃ upper, c = digitText upper (digitValue c).toNat := by
  decide +kernel

theorem digitOf_some {c : Byte} {d : Nat} (h : digitOf c = some d) :
    d < 36 ∧ ∃ upper, c = digitText upper d := by
  have hmem := List.mem_of_find?_eq_some h
  have htext := List.find?_some h
  simp only [Bool.or_eq_true, beq_iff_eq] at htext
  refine ⟨List.mem_range.mp hmem, ?_⟩
  rcases htext with hlower | hupper
  · exact ⟨false, hlower⟩
  · exact ⟨true, hupper⟩

theorem digitValue_eq (c : Byte) :
    digitValue c = (digitOf c).elim (-1) fun d => (d : Int) := by
  cases h : digitOf c with
  | some d =>
    obtain ⟨hd, upper, rfl⟩ := digitOf_some h
    exact digitValue_digitText d hd upper
  | none =>
    rcases digitText_digitValue c with hneg | ⟨hd, upper, hc⟩
    · exact hneg
    · rw [hc, digitOf_digitText _ hd] at h
      cases h

section Loop
variable {w b : Nat}

theorem validDigit_iff {c : Byte} :
    validDigit b c = true ↔ ∃ d, digitOf c = some d ∧ d < b := by
  cases hd : digitOf c with
  | none => simp [validDigit, hd]
  | some d => simp [validDigit, hd]

theorem takeDigits_stop {c : Byte} (h : validDigit b c = false) (r : BitVec w) (str : List Byte) :
    takeDigits (b : Int) r (c :: str) = some (r, c :: str) := by
  have hstop : digitValue c < 0 ∨ digitValue c ≥ (b : Int) := by
    rw [digitValue_eq]
    cases hd : digitOf c with
    | none => exact Or.inl (by decide)
    | some d =>
      have hb : b ≤ d := by simpa [validDigit, hd] using h
      exact Or.inr (Int.ofNat_le.mpr hb)
  rw [takeDigits, if_pos hstop]

theorem takeDigits_digit {c : Byte} (h : validDigit b c = true) (acc : Nat) (str : List Byte) :
    takeDigits (b : Int) (BitVec.ofNat w acc) (c :: str) =
      takeDigits (b : Int) (BitVec.ofNat w (acc * b + digitNum c)) str := by
  obtain ⟨d, hd, hb⟩ := validDigit_iff.mp h
  have hval : digitValue c = (d : Int) := by rw [digitValue_eq, hd]; rfl
  have hgo : ¬ (digitValue c < 0 ∨ digitValue c ≥ (b : Int)) := by
    rw [hval]
    omega
  rw [takeDigits, if_neg hgo, hval, BitVec.ofInt_natCast, BitVec.ofInt_natCast, ← BitVec.ofNat_mul,
    ← BitVec.ofNat_add, digitNum, hd]
  rfl

theorem validDigit_nul : validDigit b 0#8 = false := by
  have hnul : digitOf 0#8 = none := by decide
  simp [validDigit, hnul]

/-- The loop reads the digits of the base and stops at the first other character. -/
theorem takeDigits_text (acc : Nat) (t rest : List Byte) :
    takeDigits (b : Int) (BitVec.ofNat w acc) (t ++ 0#8 :: rest) =
      some (BitVec.ofNat w (Numeral.read b acc ((t.takeWhile (validDigit b)).map digitNum)),
        t.dropWhile (validDigit b) ++ 0#8 :: rest) := by
  induction t generalizing acc with
  | nil => exact takeDigits_stop validDigit_nul _ rest
  | cons c t ih =>
    by_cases h : validDigit b c = true
    · rw [List.cons_append, takeDigits_digit h, ih, List.takeWhile_cons_of_pos h,
        List.dropWhile_cons_of_pos h]
      rfl
    · rw [List.cons_append, takeDigits_stop (Bool.eq_false_of_not_eq_true h),
        List.takeWhile_cons_of_neg h, List.dropWhile_cons_of_neg h]
      rfl

theorem validDigit_digitText {d : Nat} (hb : b ≤ 36) (hd : d < b) (upper : Bool) :
    validDigit b (digitText upper d) = true := by
  simp [validDigit, digitOf_digitText d (by omega) upper, hd]

/-- What the loop makes of a printed number. -/
theorem takeDigits_digits (hb : 1 < b) (hb' : b ≤ 36) (n : Nat) (upper : Bool)
    (rest : List Byte) :
    takeDigits (b : Int) 0#w ((Numeral.digits b n).map (digitText upper) ++ 0#8 :: rest) =
      some (BitVec.ofNat w n, 0#8 :: rest) := by
  have hvalid : ∀ c ∈ (Numeral.digits b n).map (digitText upper), validDigit b c = true := by
    intro c hc
    obtain ⟨d, hd, rfl⟩ := List.mem_map.mp hc
    exact validDigit_digitText hb' (Numeral.digits_lt hb d hd) upper
  have hnums : ((Numeral.digits b n).map (digitText upper)).map digitNum = Numeral.digits b n := by
    rw [List.map_map]
    refine (List.map_congr_left fun d hd => ?_).trans (List.map_id _)
    have hlt := Numeral.digits_lt hb d hd
    simp [digitNum, digitOf_digitText d (by omega) upper]
  rw [takeDigits_text 0, List.takeWhile_eq_self_iff.mpr hvalid,
    List.dropWhile_eq_nil_iff.mpr hvalid, hnums]
  exact congrArg (fun m => some (BitVec.ofNat w m, 0#8 :: rest)) Numeral.value_digits

end Loop

/-! ## Printed numbers -/

/-- The buffer after the stores; a store outside of it is lost. -/
def storeAll (out : List Byte) (stores : List (Nat × Byte)) : List Byte :=
  stores.foldl (fun out s => out.set s.1 s.2) out

theorem storeAll_storesFrom (cs pre post : List Byte) (h : cs.length ≤ post.length) :
    storeAll (pre ++ post) (storesFrom pre.length cs) = pre ++ (cs ++ post.drop cs.length) := by
  induction cs generalizing pre post with
  | nil => rfl
  | cons c cs ih =>
    cases post with
    | nil => exact absurd h (Nat.not_succ_le_zero _)
    | cons d post =>
      have hset : (pre ++ d :: post).set pre.length c = (pre ++ [c]) ++ post := by simp
      have := ih (pre ++ [c]) post (by simpa using h)
      rw [List.length_append, List.length_singleton] at this
      rw [storesFrom, storeAll, List.foldl_cons, hset, ← storeAll, this]
      simp

/-- The text and its NUL stand at the front of the buffer. -/
theorem storeAll_text (cs out : List Byte) (h : cs.length < out.length) :
    storeAll out (storesFrom 0 cs ++ [(cs.length, 0#8)]) =
      cs ++ 0#8 :: out.drop (cs.length + 1) := by
  have hcs := storeAll_storesFrom cs [] out (Nat.le_of_lt h)
  rw [List.nil_append, List.nil_append, List.length_nil] at hcs
  obtain ⟨d, ds, hd⟩ : ∃ d ds, out.drop cs.length = d :: ds :=
    List.exists_cons_of_ne_nil (by simpa using h)
  have hds : out.drop (cs.length + 1) = ds := by
    rw [← List.drop_drop, hd]
    rfl
  have hsplit : storeAll out (storesFrom 0 cs ++ [(cs.length, 0#8)]) =
      (storeAll out (storesFrom 0 cs)).set cs.length 0#8 := List.foldl_append
  rw [hsplit, hcs, hds, hd]
  simp

/-- `sprintf` with one integer stores its field and the NUL. -/
theorem sprintf_field (f : IntSpec) (v : BitVec f.length.bits) {fmt : CString}
    (hfmt : fmt.chars = f.text) (h : f.Conforms v) (hlen : (f.field v).length ≤ INT_MAX) :
    sprintf fmt [f.length.arg v] = some (storesFrom 0 (f.field v) ++ [((f.field v).length, 0#8)],
      ((f.field v).length : Int)) := by
  have hback : ∀ st, printfBackend st fmt [f.length.arg v] = some (emit st (f.field v)) := by
    intro st
    obtain ⟨k, hk⟩ : ∃ k, f.text.length = k + 1 := ⟨_, rfl⟩
    rw [printfBackend, CString.bytes, hfmt, List.length_append, List.length_singleton,
      f.printfLoop_int, f.emitted_of_conforms v h, hk]
    rfl
  have hmax : (-1#32).toNat - 1 = 4294967294 := by decide
  unfold INT_MAX at hlen
  rw [sprintf, vsprintf, vsnprintf_eq hback hlen (by decide), hmax,
    List.take_of_length_le (by omega), Nat.min_eq_left (by omega)]

section Prefix
variable {base : Int} {c : Byte} (str : List Byte)

theorem takePrefix_plain (hb : base ≠ 0) (h : ¬ (base = 16 ∧ c = ch '0')) :
    takePrefix base (c :: str) = some (base, c :: str) := by
  simp only [takePrefix, hb, h, if_false]

theorem takePrefix_decimal (h : c ≠ ch '0') : takePrefix 0 (c :: str) = some (10, c :: str) := by
  simp only [takePrefix, h, if_true, if_false]

theorem takePrefix_hex (hb : base = 0 ∨ base = 16) (hc : c = ch 'x' ∨ c = ch 'X') :
    takePrefix base (ch '0' :: c :: str) = some (16, str) := by
  rcases hb with rfl | rfl <;> simp [takePrefix, hc]

theorem takePrefix_octal (hc : ¬ (c = ch 'x' ∨ c = ch 'X')) :
    takePrefix 0 (ch '0' :: c :: str) = some (8, c :: str) := by
  simp [takePrefix, hc]

theorem takePrefix_sixteen (hc : ¬ (c = ch 'x' ∨ c = ch 'X')) :
    takePrefix 16 (ch '0' :: c :: str) = some (16, c :: str) := by
  simp [takePrefix, hc]

end Prefix

theorem skipSpace_stop {c : Byte} (h : isspace c = false) (str : List Byte) :
    skipSpace (c :: str) = some (c :: str) := by
  simp [skipSpace, h]

/-- A digit is not taken for white space or for a sign. -/
theorem digitText_plain : ∀ d < 36, ∀ upper, isspace (digitText upper d) = false ∧
    digitText upper d ≠ ch '+' ∧ digitText upper d ≠ ch '-' ∧
    (digitText upper d = ch '0' → d = 0) := by
  decide +kernel

section Printed
variable {b : Nat} (hb : 1 < b) (hb' : b ≤ 36) (n : Nat) (upper : Bool) (rest : List Byte)
include hb hb'

/-- The text of a number, and its first digit. -/
theorem printed_head : ∃ d ds, (Numeral.digits b n).map (digitText upper) ++ 0#8 :: rest =
    digitText upper d :: (ds.map (digitText upper) ++ 0#8 :: rest) ∧
      Numeral.digits b n = d :: ds ∧ d < 36 := by
  obtain ⟨d, ds, hds⟩ :=
    List.exists_cons_of_ne_nil (Numeral.digits_ne_nil : Numeral.digits b n ≠ [])
  have hd : d < b := Numeral.digits_lt hb d (by rw [hds]; exact List.mem_cons_self)
  exact ⟨d, ds, by rw [hds]; rfl, hds, by omega⟩

/-- Only the text of zero begins with the `0` that base 16 steps over. -/
theorem takeNumber_printed (w : Nat) :
    takeNumber w b ((Numeral.digits b n).map (digitText upper) ++ 0#8 :: rest) =
      some (BitVec.ofNat w n, 0#8 :: rest) := by
  obtain ⟨d, ds, htext, hds, hd⟩ := printed_head hb hb' n upper rest
  have hread := takeDigits_digits (w := w) hb hb' n upper rest
  have hb0 : ¬ (b : Int) = 0 := by omega
  by_cases hzero : (b : Int) = 16 ∧ digitText upper d = ch '0'
  · have hn : n = 0 := by
      rw [(digitText_plain d hd upper).2.2.2 hzero.2] at hds
      exact Numeral.digits_head hds
    subst hn
    obtain ⟨rfl, rfl⟩ : d = 0 ∧ ds = [] := by
      simpa [Numeral.digits, eq_comm] using hds
    rw [htext, hzero.2, hzero.1, List.map_nil, List.nil_append, takeNumber,
      takePrefix_sixteen rest (by decide)]
    exact takeDigits_stop (b := 16) validDigit_nul _ _
  · rw [htext] at hread ⊢
    rw [takeNumber, takePrefix_plain _ hb0 hzero]
    exact hread

theorem strtoUnsigned_printed (w : Nat) :
    strtoUnsigned w ((Numeral.digits b n).map (digitText upper) ++ 0#8 :: rest) b =
      some (BitVec.ofNat w n, 0#8 :: rest) := by
  obtain ⟨d, ds, htext, -, hd⟩ := printed_head hb hb' n upper rest
  obtain ⟨hspace, hplus, -, -⟩ := digitText_plain d hd upper
  have hread := takeNumber_printed hb hb' n upper rest w
  have hbase : ¬ ((b : Int) ≠ 0 ∧ ((b : Int) < 2 ∨ (b : Int) > 36)) := by omega
  rw [htext] at hread ⊢
  rw [strtoUnsigned, if_neg hbase, skipSpace_stop hspace]
  simp only [Option.bind_eq_bind, Option.bind_some, takePlus, hplus, if_false]
  exact hread

theorem strtoSigned_printed (w : Nat) :
    strtoSigned w ((Numeral.digits b n).map (digitText upper) ++ 0#8 :: rest) b =
        some (BitVec.ofNat w n, 0#8 :: rest) ∧
      strtoSigned w (ch '-' :: ((Numeral.digits b n).map (digitText upper) ++ 0#8 :: rest)) b =
        some (-BitVec.ofNat w n, 0#8 :: rest) := by
  obtain ⟨d, ds, htext, -, hd⟩ := printed_head hb hb' n upper rest
  obtain ⟨hspace, hplus, hminus, -⟩ := digitText_plain d hd upper
  have hread := takeNumber_printed hb hb' n upper rest w
  have hbase : ¬ ((b : Int) ≠ 0 ∧ ((b : Int) < 2 ∨ (b : Int) > 36)) := by omega
  have hdash : ch '-' ≠ ch '+' := by decide
  rw [htext] at hread ⊢
  constructor
  · rw [strtoSigned, if_neg hbase, skipSpace_stop hspace]
    simp only [Option.bind_eq_bind, Option.bind_some, takeSign, hplus, hminus, if_false, hread]
    rfl
  · rw [strtoSigned, if_neg hbase, skipSpace_stop (by decide)]
    simp only [Option.bind_eq_bind, Option.bind_some, takeSign, hdash, if_false, if_true, hread]
    rfl

end Printed

/-- An unsigned number that fits the result is read back from its digits. -/
theorem strtoUnsigned_numeral {b w : Nat} (hb : 1 < b) (hb' : b ≤ 36) (v : BitVec w) (upper : Bool)
    (rest : List Byte) :
    strtoUnsigned w ((Numeral.digits b v.toNat).map (digitText upper) ++ 0#8 :: rest) b =
      some (v, 0#8 :: rest) := by
  rw [strtoUnsigned_printed hb hb', BitVec.ofNat_toNat, BitVec.setWidth_eq]

theorem strtoul_numeral {b : Nat} (hb : 1 < b) (hb' : b ≤ 36) (v : BitVec 32) (upper : Bool)
    (rest : List Byte) :
    strtoul ((Numeral.digits b v.toNat).map (digitText upper) ++ 0#8 :: rest) b =
      some (v, 0#8 :: rest) := strtoUnsigned_numeral hb hb' v upper rest

/-- A number as `%d` prints it, without flags and width. -/
def decimalText {w : Nat} (v : BitVec w) : List Byte :=
  (if v.toInt < 0 then [ch '-'] else []) ++
    (Numeral.digits 10 v.toInt.natAbs).map (digitText false)

/-- The most negative number is read back too: its digits wrap around to it. -/
theorem strtoSigned_decimalText {w : Nat} (v : BitVec w) (rest : List Byte) :
    strtoSigned w (decimalText v ++ 0#8 :: rest) 10 = some (v, 0#8 :: rest) := by
  obtain ⟨hpos, hneg⟩ := strtoSigned_printed (b := 10) (by decide) (by decide) v.toInt.natAbs false
    rest w
  unfold decimalText
  by_cases h : v.toInt < 0
  · have hval : -BitVec.ofNat w v.toInt.natAbs = v := by
      rw [← BitVec.ofInt_natCast, ← BitVec.ofInt_neg, Int.ofNat_natAbs_of_nonpos (by omega),
        Int.neg_neg, BitVec.ofInt_toInt]
    rw [hval] at hneg
    rw [if_pos h]
    exact hneg
  · have hval : BitVec.ofNat w v.toInt.natAbs = v := by
      rw [← BitVec.ofInt_natCast, Int.natAbs_of_nonneg (by omega), BitVec.ofInt_toInt]
    rw [hval] at hpos
    rw [if_neg h, List.nil_append]
    exact hpos

theorem ato_decimalText (v : BitVec 32) (x : BitVec 64) (rest : List Byte) :
    atoi (decimalText v ++ 0#8 :: rest) = some v ∧ atol (decimalText v ++ 0#8 :: rest) = some v ∧
      atoll (decimalText x ++ 0#8 :: rest) = some x := by
  simp only [atoi, atol, atoll, strtol, strtoll, strtoSigned_decimalText, Option.map_some, and_self]

/-! ## Parsing undoes printing -/

/-- `%ll` with the letter of the conversion. -/
def llSpec (conv : IntConv) : IntSpec := ⟨[], 0, .llong, conv⟩

def llFmt (conv : IntConv) : CString :=
  ⟨[ch '%', ch 'l', ch 'l', conv.char], by cases conv <;> decide⟩

theorem llSpec_field (conv : IntConv) (v : BitVec 64) :
    (llSpec conv).field v = (llSpec conv).signText v ++ (llSpec conv).digitsText v := by
  simp [IntSpec.field, IntSpec.justify, llSpec]

/-- The text `sprintf` stores to a buffer with room for it is read as `v`, and
`*endptr` is its NUL. -/
def RoundTrips (conv : IntConv) (parse : List Byte → Option (BitVec 64 × List Byte))
    (v : BitVec 64) : Prop :=
  ∃ stores, ∃ ret : Nat, sprintf (llFmt conv) [.llong v] = some (stores, (ret : Int)) ∧
    ∀ out : List Byte, ret < out.length →
      parse (storeAll out stores) = some (v, (storeAll out stores).drop ret) ∧
        (storeAll out stores)[ret]? = some 0#8

theorem roundTrips_of_parse {conv : IntConv} {parse : List Byte → Option (BitVec 64 × List Byte)}
    {v : BitVec 64}
    (h : ∀ rest, parse ((llSpec conv).field v ++ 0#8 :: rest) = some (v, 0#8 :: rest)) :
    RoundTrips conv parse v := by
  have hconf : (llSpec conv).Conforms v := by
    refine ⟨Nat.two_pow_pos 32, ?_, ?_⟩
    · rintro ⟨-, -, -, -, hwide⟩
      exact absurd hwide (by simp [llSpec])
    · rintro ⟨-, -, hplus, -⟩
      exact absurd hplus (by simp [llSpec])
  have hlen : ((llSpec conv).field v).length ≤ INT_MAX := by
    have h1 := (llSpec conv).signText_length_le v
    have h2 := (llSpec conv).digitsText_length_le v
    rw [llSpec_field, List.length_append]
    unfold INT_MAX
    omega
  refine ⟨_, _, sprintf_field (llSpec conv) v (by simp [llFmt, IntSpec.text, llSpec,
    IntSpec.widthText, Length.text]) hconf hlen, ?_⟩
  intro out hout
  rw [storeAll_text _ _ hout, h, List.drop_left]
  exact ⟨rfl, by simp⟩

/-- An unsigned number, in any of the bases. -/
theorem unsigned_roundTrips {conv : IntConv} (hs : conv.signed = false) (v : BitVec 64) :
    RoundTrips conv (fun str => strtoull str conv.base) v := by
  apply roundTrips_of_parse
  intro rest
  have hbase : 1 < conv.base ∧ conv.base ≤ 36 := by cases conv <;> decide
  have hsign : (llSpec conv).signText v = [] := by simp [IntSpec.signText, llSpec, hs]
  have hdigits : (llSpec conv).digitsText v =
      (Numeral.digits conv.base v.toNat).map (digitText (conv == .X)) := by
    show List.map _ (Numeral.digits conv.base (if conv.signed then _ else v.toNat)) = _
    rw [hs]
    rfl
  rw [llSpec_field, hsign, hdigits, List.nil_append, strtoull,
    strtoUnsigned_numeral hbase.1 hbase.2]

theorem signed_roundTrips (v : BitVec 64) : RoundTrips .d (fun str => strtoll str 10) v := by
  apply roundTrips_of_parse
  intro rest
  have htext : (llSpec .d).field v = decimalText v := by
    rw [llSpec_field]
    rfl
  rw [htext]
  exact strtoSigned_decimalText v rest

/-- Parsing undoes printing, for every 64-bit number and each of the formats. -/
theorem strto_undoes_sprintf (v : BitVec 64) :
    RoundTrips .d (fun str => strtoll str 10) v ∧
      RoundTrips .u (fun str => strtoull str 10) v ∧
      RoundTrips .x (fun str => strtoull str 16) v ∧
      RoundTrips .X (fun str => strtoull str 16) v ∧
      RoundTrips .o (fun str => strtoull str 8) v :=
  ⟨signed_roundTrips v, unsigned_roundTrips rfl v, unsigned_roundTrips rfl v,
    unsigned_roundTrips rfl v, unsigned_roundTrips rfl v⟩

end Klib
