import AiOsoc.Klib.Printf

/-!
# Integer fields

The conversions `d`, `i`, `u`, `x`, `X` and `o` with flags, a width and a length
modifier. `IntSpec.field` is the field the C standard describes; `printf_signed`
pads a right-justified signed field by the whole width, whatever its digits.
-/

namespace Klib

set_option autoImplicit false

attribute [local instance] byteLawful

inductive Flag where
  | minus | zero | plus | space
  deriving Repr, DecidableEq

def Flag.char : Flag → Byte
  | .minus => ch '-'
  | .zero => ch '0'
  | .plus => ch '+'
  | .space => ch ' '

inductive Length where
  | int | long | llong
  deriving Repr, DecidableEq

def Length.text : Length → List Byte
  | .int => []
  | .long => [ch 'l']
  | .llong => [ch 'l', ch 'l']

/-- The size of the argument on RV32. -/
def Length.bits : Length → Nat
  | .int | .long => 32
  | .llong => 64

def Length.arg : (len : Length) → BitVec len.bits → Arg
  | .int, v => .int v
  | .long, v => .long v
  | .llong, v => .llong v

inductive IntConv where
  | d | i | u | x | X | o
  deriving Repr, DecidableEq

def IntConv.char : IntConv → Byte
  | .d => ch 'd'
  | .i => ch 'i'
  | .u => ch 'u'
  | .x => ch 'x'
  | .X => ch 'X'
  | .o => ch 'o'

def IntConv.signed : IntConv → Bool
  | .d | .i => true
  | .u | .x | .X | .o => false

def IntConv.base : IntConv → Nat
  | .d | .i | .u => 10
  | .x | .X => 16
  | .o => 8

/-- A conversion specification; a width of zero is not written. -/
structure IntSpec where
  flags : List Flag
  width : Nat
  length : Length
  conv : IntConv

namespace IntSpec
variable (f : IntSpec)

def widthText : List Byte := (Nat.digits 10 f.width).reverse.map (digitText false)

def text : List Byte :=
  ch '%' :: (f.flags.map Flag.char ++ (f.widthText ++ (f.length.text ++ [f.conv.char])))

variable (v : BitVec f.length.bits)

def magnitude : Nat := if f.conv.signed then v.toInt.natAbs else v.toNat

/-- The sign character; `+` overrides the space. -/
def signText : List Byte :=
  if f.conv.signed then
    if v.toInt < 0 then [ch '-']
    else if .plus ∈ f.flags then [ch '+']
    else if .space ∈ f.flags then [ch ' '] else []
  else []

def digitsText : List Byte :=
  (Numeral.digits f.conv.base (f.magnitude v)).map (digitText (f.conv == .X))

/-- Sign and digits padded to the width. -/
def justify (sign digits : List Byte) (width : Nat) : List Byte :=
  let pad := width - (sign.length + digits.length)
  if .minus ∈ f.flags then sign ++ digits ++ List.replicate pad (ch ' ')
  else if .zero ∈ f.flags then sign ++ List.replicate pad (ch '0') ++ digits
  else List.replicate pad (ch ' ') ++ sign ++ digits

theorem justify_length (sign digits : List Byte) (width : Nat) :
    (f.justify sign digits width).length = max width (sign.length + digits.length) := by
  simp only [justify]
  split_ifs <;> simp only [List.length_append, List.length_replicate] <;> omega

/-- The field of the C standard. -/
def field : List Byte := f.justify (f.signText v) (f.digitsText v) f.width

/-- Wherever the conversion stands in a format and whatever is printed to, the
main loop emits the field and goes on behind it with the next argument. -/
def PrintsField : Prop :=
  ∀ (turns : Nat) (st : PrintfState) (fmt : List Byte) (ap : List Arg),
    printfLoop (turns + 1) st (f.text ++ fmt) (f.length.arg v :: ap) =
      printfLoop turns (emit st (f.field v)) fmt ap

end IntSpec

/-! ## Parsing the specification -/

/-- The `sign` left by the flags: the last of `+` and space counts. -/
def lastSign (sign : Byte) : List Flag → Byte
  | [] => sign
  | .plus :: flags => lastSign (ch '+') flags
  | .space :: flags => lastSign (ch ' ') flags
  | .minus :: flags | .zero :: flags => lastSign sign flags

theorem lastSign_none {flags : List Flag} (sign : Byte) (hp : .plus ∉ flags)
    (hs : .space ∉ flags) : lastSign sign flags = sign := by
  induction flags generalizing sign with
  | nil => rfl
  | cons flag flags ih =>
    simp only [List.mem_cons, not_or] at hp hs
    cases flag with
    | minus => exact ih sign hp.2 hs.2
    | zero => exact ih sign hp.2 hs.2
    | plus => exact absurd rfl hp.1
    | space => exact absurd rfl hs.1

theorem lastSign_space {flags : List Flag} (sign : Byte) (hp : .plus ∉ flags)
    (hs : .space ∈ flags ∨ sign = ch ' ') : lastSign sign flags = ch ' ' := by
  induction flags generalizing sign with
  | nil => exact hs.resolve_left List.not_mem_nil
  | cons flag flags ih =>
    simp only [List.mem_cons, not_or] at hp hs
    cases flag with
    | minus => exact ih sign hp.2 (by simpa using hs)
    | zero => exact ih sign hp.2 (by simpa using hs)
    | plus => exact absurd rfl hp.1
    | space => exact ih (ch ' ') hp.2 (Or.inr rfl)

theorem lastSign_plus {flags : List Flag} (sign : Byte)
    (hp : .plus ∈ flags ∨ sign = ch '+' ∨ sign = ch ' ') :
    lastSign sign flags = ch '+' ∨ lastSign sign flags = ch ' ' := by
  induction flags generalizing sign with
  | nil => exact hp.resolve_left List.not_mem_nil
  | cons flag flags ih =>
    simp only [List.mem_cons] at hp
    cases flag with
    | minus => exact ih sign (by simpa using hp)
    | zero => exact ih sign (by simpa using hp)
    | plus => exact ih (ch '+') (Or.inr (Or.inl rfl))
    | space => exact ih (ch ' ') (Or.inr (Or.inr rfl))

def Spec.withFlag (spec : Spec) : Flag → Spec
  | .minus => { spec with leftJustified := true }
  | .zero => { spec with padding := ch '0' }
  | .plus => { spec with sign := ch '+' }
  | .space => { spec with sign := ch ' ' }

theorem parseFlags_flag (spec : Spec) (flag : Flag) (fmt : List Byte) :
    parseFlags spec (flag.char :: fmt) = parseFlags (spec.withFlag flag) fmt := by
  cases flag <;> simp [parseFlags, Flag.char, Spec.withFlag, ch]

theorem foldl_withFlag (flags : List Flag) (spec : Spec) :
    flags.foldl Spec.withFlag spec = { spec with
      leftJustified := spec.leftJustified || decide (.minus ∈ flags)
      sign := lastSign spec.sign flags
      padding := if .zero ∈ flags then ch '0' else spec.padding } := by
  induction flags generalizing spec with
  | nil => simp [lastSign]
  | cons flag flags ih =>
    rw [List.foldl_cons, ih]
    cases flag <;> simp [lastSign, Spec.withFlag]

theorem parseFlags_flags (flags : List Flag) (spec : Spec) (fmt : List Byte) :
    parseFlags spec (flags.map Flag.char ++ fmt) =
      parseFlags (flags.foldl Spec.withFlag spec) fmt := by
  induction flags generalizing spec with
  | nil => rfl
  | cons flag flags ih =>
    rw [List.map_cons, List.cons_append, parseFlags_flag, ih, List.foldl_cons]

/-- A character that ends the flags. -/
theorem parseFlags_stop (spec : Spec) {c : Byte} (fmt : List Byte)
    (h : c ∉ ['-', '+', ' ', '0', '#'].map ch) :
    parseFlags spec (c :: fmt) = some (spec, c :: fmt) := by
  simp only [List.map_cons, List.map_nil, List.mem_cons, List.not_mem_nil, not_or] at h
  obtain ⟨h1, h2, h3, h4, h5, -⟩ := h
  simp only [parseFlags, h1, h2, h3, h4, h5, if_false]

theorem isDigit_digitText {d : Nat} (h : d < 10) : isDigit (digitText false d) = true := by
  interval_cases d <;> decide

theorem digitText_value {d : Nat} (h : d < 10) :
    (digitText false d).setWidth 32 - (ch '0').setWidth 32 = BitVec.ofNat 32 d := by
  interval_cases d <;> decide

/-- The width is read modulo `2 ^ 32`. -/
theorem parseWidth_digits (ds : List Nat) (hds : ∀ d ∈ ds, d < 10) (spec : Spec) (acc : Nat)
    (hacc : spec.width = BitVec.ofNat 32 acc) (fmt : List Byte) :
    parseWidth spec (ds.map (digitText false) ++ fmt) =
      parseWidth { spec with width := BitVec.ofNat 32 (Numeral.read 10 acc ds) } fmt := by
  induction ds generalizing spec acc with
  | nil =>
    rw [Numeral.read_nil, ← hacc]
    rfl
  | cons d ds ih =>
    have hd : d < 10 := hds d List.mem_cons_self
    rw [List.map_cons, List.cons_append, parseWidth, if_pos (isDigit_digitText hd),
      ih (fun e he => hds e (List.mem_cons_of_mem d he)) _ (acc * 10 + d)]
    · rfl
    · show spec.width * 10#32 + _ - _ = _
      rw [BitVec.sub_eq_add_neg, BitVec.add_assoc, ← BitVec.sub_eq_add_neg, digitText_value hd,
        hacc, BitVec.ofNat_add, BitVec.ofNat_mul]

theorem parseWidth_stop (spec : Spec) {c : Byte} (fmt : List Byte) (h : isDigit c = false) :
    parseWidth spec (c :: fmt) = some (spec, c :: fmt) := by
  simp [parseWidth, h]

theorem skipPrecision_stop {c : Byte} (fmt : List Byte) (h : c ≠ ch '.') :
    skipPrecision (c :: fmt) = some (c :: fmt) := by
  simp [skipPrecision, h]

/-- The level of the length modifier. -/
def Length.level : Length → Int
  | .int => 0
  | .long => 1
  | .llong => 2

namespace IntSpec
variable (f : IntSpec)

/-- The specification as `printf_backend` has it at the conversion letter. -/
def parsed : Spec where
  leftJustified := decide (.minus ∈ f.flags)
  sign := lastSign 0#8 f.flags
  padding := if .zero ∈ f.flags then ch '0' else ch ' '
  width := BitVec.ofNat 32 f.width
  lengthLevel := f.length.level

/-- What follows the width. -/
theorem tail_head : ∃ c cs, f.length.text ++ [f.conv.char] = c :: cs ∧ isDigit c = false ∧
    c ≠ ch '.' ∧ c ∉ ['-', '+', ' ', '0', '#'].map ch := by
  cases f.length with
  | int =>
    refine ⟨f.conv.char, [], rfl, ?_⟩
    cases f.conv <;> decide
  | long => exact ⟨ch 'l', [f.conv.char], rfl, by decide⟩
  | llong => exact ⟨ch 'l', [ch 'l', f.conv.char], rfl, by decide⟩

theorem parseLength_text (spec : Spec) (h : spec.lengthLevel = 0) (fmt : List Byte) :
    parseLength spec (f.length.text ++ [f.conv.char] ++ fmt) =
      some ({ spec with lengthLevel := f.length.level }, f.conv.char :: fmt) := by
  have hstop : ∀ spec, parseLength spec (f.conv.char :: fmt) = some (spec, f.conv.char :: fmt) := by
    intro spec
    have hl : f.conv.char ≠ ch 'l' ∧ f.conv.char ≠ ch 'h' := by cases f.conv <;> decide
    simp only [parseLength, hl, if_false]
  obtain ⟨left, sign, padding, width, level⟩ := spec
  cases h
  cases f.length with
  | int => exact hstop _
  | long => exact hstop _
  | llong => exact hstop _

theorem width_digits_lt : ∀ d ∈ (Nat.digits 10 f.width).reverse, d < 10 := by
  intro d hd
  exact Nat.digits_lt_base (by decide) (List.mem_reverse.mp hd)

theorem read_width : Numeral.read 10 0 (Nat.digits 10 f.width).reverse = f.width := by
  rw [Numeral.read_eq_ofDigits, List.reverse_reverse, Nat.ofDigits_digits, Nat.zero_mul,
    Nat.zero_add]

/-- The first digit of the width is not taken for a flag. -/
theorem parseFlags_width (spec : Spec) (fmt : List Byte) :
    parseFlags spec (f.widthText ++ (f.length.text ++ [f.conv.char] ++ fmt)) =
      some (spec, f.widthText ++ (f.length.text ++ [f.conv.char] ++ fmt)) := by
  by_cases hw : f.width = 0
  · obtain ⟨c, cs, htail, -, -, hflag⟩ := f.tail_head
    have hempty : f.widthText = [] := by simp [widthText, hw]
    rw [hempty, htail]
    exact parseFlags_stop spec _ hflag
  · have hne : Nat.digits 10 f.width ≠ [] := Nat.digits_ne_nil_iff_ne_zero.mpr hw
    obtain ⟨d, ds, hds⟩ : ∃ d ds, (Nat.digits 10 f.width).reverse = d :: ds :=
      List.exists_cons_of_ne_nil fun h => hne (List.reverse_eq_nil_iff.mp h)
    have hlt : d < 10 := f.width_digits_lt d (by rw [hds]; exact List.mem_cons_self)
    have hpos : d ≠ 0 := by
      rintro rfl
      exact hw (Numeral.digits_head (by rw [Numeral.digits, if_neg hw, hds]))
    have hflag : digitText false d ∉ ['-', '+', ' ', '0', '#'].map ch := by
      interval_cases d <;> first | exact absurd rfl hpos | decide
    rw [widthText, hds, List.map_cons]
    exact parseFlags_stop spec _ hflag

theorem parseSpec_text (fmt : List Byte) :
    parseSpec (f.flags.map Flag.char ++ (f.widthText ++ (f.length.text ++ [f.conv.char])) ++ fmt) =
      some (f.parsed, f.conv.char :: fmt) := by
  obtain ⟨c, cs, htail, hdig, hdot, -⟩ := f.tail_head
  have hlen := fun spec h => f.parseLength_text spec h fmt
  have hflags := fun spec => f.parseFlags_width spec fmt
  rw [htail] at hlen hflags
  have hwidth : ∀ spec : Spec, spec.width = 0#32 →
      parseWidth spec (f.widthText ++ (c :: cs ++ fmt)) =
        some ({ spec with width := BitVec.ofNat 32 f.width }, c :: (cs ++ fmt)) := by
    intro spec h0
    rw [widthText, parseWidth_digits _ f.width_digits_lt spec 0 h0, f.read_width]
    exact parseWidth_stop _ _ hdig
  rw [htail]
  simp only [parseSpec, List.append_assoc, parseFlags_flags, hflags, foldl_withFlag,
    Option.bind_eq_bind, Option.bind_some, hwidth]
  rw [skipPrecision_stop _ hdot, Option.bind_some]
  exact hlen _ rfl

/-! ## The conversion -/

theorem vaSigned_arg (len : Length) (v : BitVec len.bits) (ap : List Arg) :
    vaSigned len.level (len.arg v :: ap) = some (v.signExtend 64, ap) := by
  cases len with
  | int => rfl
  | long => rfl
  | llong =>
    exact congrArg (fun w : BitVec 64 => some (w, ap)) (BitVec.signExtend_eq v).symm

theorem vaUnsigned_arg (len : Length) (v : BitVec len.bits) (ap : List Arg) :
    vaUnsigned len.level (len.arg v :: ap) = some (v.setWidth 64, ap) := by
  cases len with
  | int => rfl
  | long => rfl
  | llong =>
    exact congrArg (fun w : BitVec 64 => some (w, ap)) (BitVec.setWidth_eq v).symm

theorem bits_le (len : Length) : len.bits ≤ 64 := by cases len <;> decide

/-- `val` is the magnitude, also of the least number. -/
theorem toNat_magnitude (n : BitVec 64) :
    (if n.slt 0#64 then -n else n).toNat = n.toInt.natAbs := by
  have hlt := n.isLt
  rw [BitVec.slt_eq_decide, BitVec.toInt_zero]
  rw [BitVec.toInt_eq_toNat_cond]
  by_cases h : 2 * n.toNat < 2 ^ 64
  · rw [if_pos h, if_neg (by simp)]
    omega
  · rw [if_neg h, if_pos (by simp only [decide_eq_true_eq]; omega), BitVec.toNat_neg]
    omega

variable (v : BitVec f.length.bits)

/-- The sign character of the code. -/
def signChars : List Byte :=
  if f.conv.signed then
    if v.toInt < 0 then [ch '-']
    else if lastSign 0#8 f.flags = 0#8 then [] else [lastSign 0#8 f.flags]
  else []

/-- The characters emitted for the conversion. -/
def emitted : List Byte :=
  if f.conv.signed then
    signedChars (f.digitsText v) (decide (v.toInt < 0)) f.parsed.width f.parsed.leftJustified
      f.parsed.padding f.parsed.sign
  else unsignedChars (f.digitsText v) f.parsed.width f.parsed.leftJustified f.parsed.padding

theorem convert_signed (hs : f.conv.signed = true) (st : PrintfState) (ap : List Arg) :
    printfConvert st f.parsed f.conv.char (f.length.arg v :: ap) =
      some (emit st (f.emitted v), ap) := by
  have hneg : (v.signExtend 64).toInt = v.toInt := BitVec.toInt_signExtend_of_le (bits_le _)
  have hdigits : printfDigits 10#64 false 32
      (if (v.signExtend 64).slt 0#64 then -v.signExtend 64 else v.signExtend 64) [] =
        some (f.digitsText v) := by
    rw [printfDigits_fits false (by decide), toNat_magnitude, hneg, digitsText, magnitude,
      if_pos hs]
    cases hc : f.conv <;> first | rfl | simp [hc, IntConv.signed] at hs
  have hslt : (v.signExtend 64).slt 0#64 = decide (v.toInt < 0) := by
    rw [BitVec.slt_eq_decide, hneg, BitVec.toInt_zero]
  have hconv : printfConvert st f.parsed f.conv.char (f.length.arg v :: ap) =
      (vaSigned f.length.level (f.length.arg v :: ap)).bind fun p =>
        (printfSigned st p.1 f.parsed.width f.parsed.leftJustified f.parsed.padding
          f.parsed.sign).bind fun st => some (st, p.2) := by
    cases hc : f.conv <;> first | rfl | simp [hc, IntConv.signed] at hs
  rw [hconv, vaSigned_arg]
  simp only [Option.bind_some, printfSigned_eq hdigits, emitted, hs, if_true, hslt]

theorem convert_unsigned (hs : f.conv.signed = false) (st : PrintfState) (ap : List Arg) :
    printfConvert st f.parsed f.conv.char (f.length.arg v :: ap) =
      some (emit st (f.emitted v), ap) := by
  have hbase : (BitVec.ofNat 64 f.conv.base).toNat = f.conv.base := by cases f.conv <;> rfl
  have height : 8 ≤ f.conv.base := by cases f.conv <;> decide
  have hval : (v.setWidth 64).toNat = v.toNat :=
    BitVec.toNat_setWidth_of_le (bits_le _)
  have hdigits : printfDigits (BitVec.ofNat 64 f.conv.base) (f.conv == .X) 32 (v.setWidth 64) [] =
      some (f.digitsText v) := by
    rw [printfDigits_fits _ (by rw [hbase]; exact height), hbase, hval, digitsText, magnitude, hs]
    rfl
  have hconv : printfConvert st f.parsed f.conv.char (f.length.arg v :: ap) =
      convertUnsigned st f.parsed (BitVec.ofNat 64 f.conv.base) (f.conv == .X)
        (f.length.arg v :: ap) := by
    cases hc : f.conv <;> first | rfl | simp [hc, IntConv.signed] at hs
  rw [hconv, convertUnsigned, show f.parsed.lengthLevel = f.length.level from rfl, vaUnsigned_arg]
  simp only [Option.bind_eq_bind, Option.bind_some, printfUnsigned_eq hdigits, emitted, hs]
  rfl

theorem printfLoop_int (turns : Nat) (st : PrintfState) (fmt : List Byte) (ap : List Arg) :
    printfLoop (turns + 1) st (f.text ++ fmt) (f.length.arg v :: ap) =
      printfLoop turns (emit st (f.emitted v)) fmt ap := by
  have hconv : printfConvert st f.parsed f.conv.char (f.length.arg v :: ap) =
      some (emit st (f.emitted v), ap) := by
    cases hs : f.conv.signed with
    | true => exact f.convert_signed v hs st ap
    | false => exact f.convert_unsigned v hs st ap
  have hpct : ch '%' ≠ 0#8 := by decide
  have hnul : f.conv.char ≠ 0#8 := by cases f.conv <;> decide
  rw [text, List.cons_append, printfLoop, if_neg hpct, if_neg (not_not_intro rfl),
    f.parseSpec_text]
  simp only [hnul, if_false, hconv]

/-! ## What is emitted -/

section Justify
variable {buffer : List Byte} (hbuf : buffer.length ≤ 32)
include hbuf

theorem unsignedChars_eq (width : SizeT) (left : Bool) (padding : Byte) :
    unsignedChars buffer width left padding =
      if left then buffer ++ List.replicate (width.toNat - buffer.length) (ch ' ')
      else List.replicate (width.toNat - buffer.length) padding ++ buffer := by
  have hlen : (BitVec.ofNat 32 buffer.length).toNat = buffer.length := by
    rw [BitVec.toNat_ofNat]
    omega
  have hpad : ∀ c, padField (BitVec.ofNat 32 buffer.length < width) c
      (width - BitVec.ofNat 32 buffer.length) =
        List.replicate (width.toNat - buffer.length) c := by
    intro c
    simp only [padField, BitVec.lt_def, hlen, decide_eq_true_eq]
    split_ifs with h
    · rw [BitVec.toNat_sub_of_le (by rw [BitVec.le_def, hlen]; omega), hlen]
    · rw [Nat.sub_eq_zero_of_le (Nat.le_of_not_lt h), List.replicate_zero]
  cases left with
  | true =>
    simp only [unsignedChars, Bool.not_true, Bool.false_and, Bool.true_and, hpad]
    rfl
  | false =>
    simp only [unsignedChars, Bool.not_false, Bool.false_and, Bool.true_and, hpad]
    exact List.append_nil _

theorem signedChars_eq (neg : Bool) (width : SizeT) (left : Bool) (padding sign : Byte)
    (hs : (neg || sign != 0#8) = true) :
    signedChars buffer neg width left padding sign =
      if !left && padding == ch ' ' && 0 < width.toNat then
        List.replicate (width.toNat - 1) (ch ' ') ++ [if neg then ch '-' else sign] ++ buffer
      else [if neg then ch '-' else sign] ++
        if left then buffer ++ List.replicate (width.toNat - 1 - buffer.length) (ch ' ')
        else List.replicate (width.toNat - 1 - buffer.length) padding ++ buffer := by
  have hpos : (0#32 < width) ↔ 0 < width.toNat := by
    rw [BitVec.lt_def]
    rfl
  have hpred : 0 < width.toNat → (width - 1#32).toNat = width.toNat - 1 := by
    intro h
    rw [BitVec.toNat_sub_of_le (by rw [BitVec.le_def]; exact h)]
    rfl
  have hrest : ∀ early : Bool, (if 0#32 < (if early then 1#32 else width) then
      (if early then 1#32 else width) - 1#32 else (if early then 1#32 else width)).toNat =
        if early then 0 else width.toNat - 1 := by
    intro early
    cases early with
    | true => simp
    | false =>
      simp only [Bool.false_eq_true, if_false, hpos]
      split_ifs with h
      · exact hpred h
      · omega
  simp only [signedChars, hs, if_true, unsignedChars_eq hbuf, hpos, hrest]
  by_cases he : (!left && padding == ch ' ' && decide (0 < width.toNat)) = true
  · obtain ⟨⟨hleft, -⟩, hw⟩ : (left = false ∧ padding == ch ' ') ∧ 0 < width.toNat := by
      simpa only [Bool.and_eq_true, Bool.not_eq_true', decide_eq_true_eq] using he
    rw [if_pos he, if_pos he, padField, if_pos he, hpred hw, Nat.zero_sub, hleft]
    rfl
  · rw [if_neg he, if_neg he, padField, if_neg he]
    rfl

end Justify

theorem digitsText_length_le : (f.digitsText v).length ≤ 32 := by
  have hbase : 8 ≤ f.conv.base := by cases f.conv <;> decide
  have hbits : 2 ^ f.length.bits ≤ 2 ^ 64 := Nat.pow_le_pow_right (by decide) (bits_le _)
  have hmag : f.magnitude v < f.conv.base ^ (31 + 1) := by
    have hlt : f.magnitude v < 2 ^ 64 := by
      unfold magnitude
      split_ifs
      · have hlt := v.isLt
        rw [BitVec.toInt_eq_toNat_cond]
        split_ifs <;> omega
      · exact Nat.lt_of_lt_of_le v.isLt hbits
    calc f.magnitude v < 2 ^ 64 := hlt
      _ ≤ 8 ^ 32 := by decide
      _ ≤ f.conv.base ^ 32 := Nat.pow_le_pow_left hbase 32
  rw [digitsText, List.length_map]
  exact Numeral.digits_length_le (by omega) hmag

theorem digitsText_length_pos : 0 < (f.digitsText v).length := by
  rw [digitsText, List.length_map]
  exact Numeral.digits_length_pos

/-- The branch of `printf_signed` that pads by the whole width. -/
def padsEarly : Bool :=
  !(f.signChars v).isEmpty && .minus ∉ f.flags && .zero ∉ f.flags && 0 < f.width % 2 ^ 32

theorem parsed_width : f.parsed.width.toNat = f.width % 2 ^ 32 := BitVec.toNat_ofNat f.width 32

theorem parsed_padding : (f.parsed.padding == ch ' ') = decide (.zero ∉ f.flags) := by
  simp only [parsed]
  split_ifs with hz <;> simp [hz, ch]

theorem unsignedChars_parsed : unsignedChars (f.digitsText v) f.parsed.width
    f.parsed.leftJustified f.parsed.padding =
      f.justify [] (f.digitsText v) (f.width % 2 ^ 32) := by
  rw [unsignedChars_eq (f.digitsText_length_le v), parsed_width]
  simp only [parsed, justify, decide_eq_true_eq, List.length_nil, Nat.zero_add, List.nil_append,
    List.append_nil]
  split_ifs <;> rfl

/-- The condition of the first branch of `printf_signed`. -/
theorem signChars_eq_nil (hsig : f.conv.signed = true) (hs : f.signChars v = []) :
    (decide (v.toInt < 0) || f.parsed.sign != 0#8) = false := by
  simp only [signChars, hsig, if_true] at hs
  split_ifs at hs with h1 h2
  simp [h1, h2, parsed]

theorem signChars_ne_nil (hs : f.signChars v ≠ []) : f.conv.signed = true ∧
    (decide (v.toInt < 0) || f.parsed.sign != 0#8) = true ∧
    f.signChars v = [if decide (v.toInt < 0) then ch '-' else f.parsed.sign] := by
  cases hsig : f.conv.signed with
  | false => exact absurd (by simp [signChars, hsig]) hs
  | true =>
    by_cases hneg : v.toInt < 0
    · exact ⟨rfl, by simp [hneg], by simp [signChars, hsig, hneg]⟩
    · have hlast : lastSign 0#8 f.flags ≠ 0#8 := by
        intro h
        exact hs (by simp [signChars, hneg, h])
      exact ⟨rfl, by simp [parsed, hlast], by simp [signChars, hsig, hneg, hlast, parsed]⟩

theorem emitted_unsigned (hs : f.signChars v = []) :
    f.emitted v = f.justify [] (f.digitsText v) (f.width % 2 ^ 32) := by
  rw [← unsignedChars_parsed, emitted]
  split_ifs with hsig
  · rw [signedChars, f.signChars_eq_nil v hsig hs, if_neg Bool.false_ne_true]
  · rfl

theorem emitted_eq : f.emitted v =
    if f.padsEarly v then
      List.replicate (f.width % 2 ^ 32 - 1) (ch ' ') ++ f.signChars v ++ f.digitsText v
    else f.justify (f.signChars v) (f.digitsText v) (f.width % 2 ^ 32) := by
  by_cases hs : f.signChars v = []
  · have hpe : f.padsEarly v = false := by simp [padsEarly, hs]
    rw [hpe, hs, if_neg Bool.false_ne_true]
    exact f.emitted_unsigned v hs
  · obtain ⟨hsig, hsome, hchars⟩ := f.signChars_ne_nil v hs
    have hpe : f.padsEarly v = (!f.parsed.leftJustified && f.parsed.padding == ch ' ' &&
        decide (0 < f.parsed.width.toNat)) := by
      rw [parsed_padding, parsed_width]
      simp [padsEarly, hchars, parsed]
    rw [emitted, if_pos hsig, signedChars_eq (f.digitsText_length_le v) _ _ _ _ _ hsome, ← hpe,
      ← hchars, parsed_width]
    have hlen : (f.signChars v).length = 1 := by rw [hchars]; rfl
    have hpad : f.width % 2 ^ 32 - 1 - (f.digitsText v).length =
        f.width % 2 ^ 32 - ((f.signChars v).length + (f.digitsText v).length) := by omega
    rw [hpad]
    split_ifs with h1 h2
    · rfl
    · have hm : .minus ∈ f.flags := of_decide_eq_true h2
      rw [justify, if_pos hm, List.append_assoc]
    · have hm : .minus ∉ f.flags := of_decide_eq_false (Bool.eq_false_of_not_eq_true h2)
      by_cases hz : .zero ∈ f.flags
      · simp only [justify, parsed, hm, hz, if_false, if_true, List.append_assoc]
      · have hw : f.width % 2 ^ 32 = 0 := by
          by_contra hw
          exact h1 (by simp [padsEarly, hchars, hm, hz]; omega)
        rw [hw, Nat.zero_sub]
        simp [justify, hm, hz]

/-! ## When the field is right -/

/-- A sign is printed in a field justified to the right with spaces: the padding
is one less than the width and takes no account of the digits. -/
def PadsWholeWidth : Prop :=
  f.conv.signed = true ∧ (v.toInt < 0 ∨ .plus ∈ f.flags ∨ .space ∈ f.flags) ∧
    .minus ∉ f.flags ∧ .zero ∉ f.flags ∧ 2 ≤ f.width

/-- A nonnegative number is printed with the flags `+` and space, the space last. -/
def SpaceOverrides : Prop :=
  f.conv.signed = true ∧ 0 ≤ v.toInt ∧ .plus ∈ f.flags ∧ lastSign 0#8 f.flags = ch ' '

def Conforms : Prop :=
  f.width < 2 ^ 32 ∧ ¬ f.PadsWholeWidth v ∧ ¬ f.SpaceOverrides v

theorem signChars_eq (h : ¬ f.SpaceOverrides v) : f.signChars v = f.signText v := by
  unfold signChars signText
  split_ifs with hsig hneg hlast hplus hspace hplus hspace
  · rfl
  · exact absurd hlast (by
      rcases lastSign_plus 0#8 (Or.inl hplus) with h | h <;> rw [h] <;> decide)
  · rw [lastSign_space 0#8 hplus (Or.inl hspace)] at hlast
    exact absurd hlast (by decide)
  · rfl
  · rcases lastSign_plus 0#8 (Or.inl hplus) with h' | h'
    · rw [h']
    · exact absurd ⟨hsig, by omega, hplus, h'⟩ h
  · rw [lastSign_space 0#8 hplus (Or.inl hspace)]
  · exact absurd (lastSign_none 0#8 hplus hspace) hlast
  · rfl

theorem signChars_of_overrides (h : f.SpaceOverrides v) :
    f.signChars v = [ch ' '] ∧ f.signText v = [ch '+'] := by
  obtain ⟨hsig, hpos, hplus, hlast⟩ := h
  have hneg : ¬ v.toInt < 0 := by omega
  have hne : ch ' ' ≠ 0#8 := by decide
  exact ⟨by simp [signChars, hsig, hneg, hlast, hne], by simp [signText, hsig, hneg, hplus]⟩

theorem signChars_length : (f.signChars v).length = (f.signText v).length := by
  by_cases h : f.SpaceOverrides v
  · obtain ⟨h1, h2⟩ := f.signChars_of_overrides v h
    rw [h1, h2]
    rfl
  · rw [f.signChars_eq v h]

theorem signText_length_le : (f.signText v).length ≤ 1 := by
  unfold signText
  split_ifs <;> simp

theorem signText_eq_nil_iff : f.signText v = [] ↔
    ¬ (f.conv.signed = true ∧ (v.toInt < 0 ∨ .plus ∈ f.flags ∨ .space ∈ f.flags)) := by
  unfold signText
  split_ifs with hsig hneg hplus hspace <;> simp [*]

theorem padsWholeWidth_iff (hw : f.width < 2 ^ 32) :
    f.PadsWholeWidth v ↔ f.padsEarly v = true ∧ 2 ≤ f.width := by
  have hsign : (f.signChars v).isEmpty = false ↔
      f.conv.signed = true ∧ (v.toInt < 0 ∨ .plus ∈ f.flags ∨ .space ∈ f.flags) := by
    rw [← not_iff_not, ← f.signText_eq_nil_iff v, Bool.not_eq_false, List.isEmpty_iff,
      ← List.length_eq_zero_iff, f.signChars_length v, List.length_eq_zero_iff]
  have hmod : f.width % 2 ^ 32 = f.width := Nat.mod_eq_of_lt hw
  simp only [PadsWholeWidth, padsEarly, Bool.and_eq_true, Bool.not_eq_true', hsign, hmod,
    decide_eq_true_eq]
  constructor
  · rintro ⟨hsig, hchar, hm, hz, hwide⟩
    exact ⟨⟨⟨⟨⟨hsig, hchar⟩, hm⟩, hz⟩, by omega⟩, hwide⟩
  · rintro ⟨⟨⟨⟨⟨hsig, hchar⟩, hm⟩, hz⟩, -⟩, hwide⟩
    exact ⟨hsig, hchar, hm, hz, hwide⟩

/-- The branch that pads early is harmless for a width of one. -/
theorem emitted_of_conforms (h : f.Conforms v) : f.emitted v = f.field v := by
  obtain ⟨hw, hpad, hover⟩ := h
  have hmod : f.width % 2 ^ 32 = f.width := Nat.mod_eq_of_lt hw
  rw [f.emitted_eq v, field, f.signChars_eq v hover, hmod]
  split_ifs with he
  · have hone : f.width ≤ 1 := by
      by_contra hwide
      exact hpad ((f.padsWholeWidth_iff v hw).mpr ⟨he, by omega⟩)
    simp only [padsEarly, Bool.and_eq_true, decide_eq_true_eq] at he
    obtain ⟨⟨⟨-, hm⟩, hz⟩, -⟩ := he
    have hdig := f.digitsText_length_pos v
    have hnone : f.width - ((f.signText v).length + (f.digitsText v).length) = 0 := by omega
    simp only [justify, hm, hz, if_false, hnone]
    rw [Nat.sub_eq_zero_of_le hone]
  · rfl

theorem emitted_length : (f.emitted v).length =
    if f.padsEarly v then f.width % 2 ^ 32 + (f.digitsText v).length
    else max (f.width % 2 ^ 32) ((f.signText v).length + (f.digitsText v).length) := by
  rw [f.emitted_eq v]
  split_ifs with he
  · simp only [padsEarly, Bool.and_eq_true, decide_eq_true_eq, Bool.not_eq_true',
      List.isEmpty_eq_false_iff] at he
    have hpos := List.length_pos_iff.mpr he.1.1.1
    have hle := f.signText_length_le v
    rw [← f.signChars_length v] at hle
    simp only [List.length_append, List.length_replicate]
    omega
  · rw [f.justify_length, f.signChars_length v]

/-- If the sign does not stand behind padding, it is the first character. -/
theorem justify_head (c : Byte) {digits : List Byte} {width : Nat}
    (h : .minus ∈ f.flags ∨ .zero ∈ f.flags ∨ width ≤ 1) :
    ∃ cs, f.justify [c] digits width = c :: cs := by
  unfold justify
  split_ifs with hm hz
  · exact ⟨_, rfl⟩
  · exact ⟨_, rfl⟩
  · have hnone : width - ([c].length + digits.length) = 0 := by
      have := (h.resolve_left hm).resolve_left hz
      simp only [List.length_singleton]
      omega
    rw [hnone]
    exact ⟨digits, rfl⟩

theorem conforms_of_emit
    (h : emit ⟨[], true, [], 0#32, -1#32⟩ (f.emitted v) =
      emit ⟨[], true, [], 0#32, -1#32⟩ (f.field v)) : f.Conforms v := by
  have hlen := length_eq_of_emit h
  rw [f.emitted_length v, field, f.justify_length] at hlen
  have hdig := f.digitsText_length_le v
  have hpos := f.digitsText_length_pos v
  have hsign := f.signText_length_le v
  have hw : f.width < 2 ^ 32 := by
    by_contra hbig
    split_ifs at hlen <;> omega
  have hmod : f.width % 2 ^ 32 = f.width := Nat.mod_eq_of_lt hw
  have hpad : ¬ f.PadsWholeWidth v := by
    rw [f.padsWholeWidth_iff v hw]
    rintro ⟨he, hwide⟩
    rw [if_pos he] at hlen
    omega
  refine ⟨hw, hpad, ?_⟩
  intro hover
  obtain ⟨hcode, hspec⟩ := f.signChars_of_overrides v hover
  have hfront : .minus ∈ f.flags ∨ .zero ∈ f.flags ∨ f.width ≤ 1 := by
    by_contra hback
    simp only [not_or, Nat.not_le] at hback
    exact hpad ⟨hover.1, Or.inr (Or.inl hover.2.2.1), hback.1, hback.2.1, hback.2.2⟩
  obtain ⟨cs, hcs⟩ : ∃ cs, f.emitted v = ch ' ' :: cs := by
    rw [f.emitted_eq v, hmod, hcode]
    split_ifs with he
    · have hone : f.width ≤ 1 := by
        by_contra hwide
        exact hpad ((f.padsWholeWidth_iff v hw).mpr ⟨he, by omega⟩)
      rw [Nat.sub_eq_zero_of_le hone]
      exact ⟨_, rfl⟩
    · exact f.justify_head _ hfront
  obtain ⟨ds, hds⟩ : ∃ ds, f.field v = ch '+' :: ds := by
    rw [field, hspec]
    exact f.justify_head _ hfront
  exact absurd (head_eq_of_emit h hcs hds) (by decide)

/-- A conversion of an integer prints the field of the C standard, whose length
is the larger of the width and the number of its characters, if and only if the
width fits in `size_t`, no sign is printed right-justified with spaces in a width
of two or more, and no space behind `+` takes its place. -/
theorem prints_field_iff :
    (f.PrintsField v ↔ f.Conforms v) ∧
      (f.field v).length = max f.width ((f.signText v).length + (f.digitsText v).length) := by
  refine ⟨⟨fun h => f.conforms_of_emit v ?_, fun h turns st fmt ap => ?_⟩, f.justify_length _ _ _⟩
  · have hend : ∀ st, printfLoop 1 st [0#8] [] = some st := fun _ => rfl
    have := h 1 ⟨[], true, [], 0#32, -1#32⟩ [0#8] []
    rw [f.printfLoop_int, hend, hend] at this
    exact Option.some.inj this
  · rw [f.printfLoop_int, f.emitted_of_conforms v h]

/-- `%5d`. -/
def fiveWide : IntSpec := ⟨[], 5, .int, .d⟩

/-- `printf("%5d", -42)` sends four spaces before `-42`, seven characters. -/
theorem fiveWide_too_long :
    printf ⟨"%5d".toList.map ch, by decide⟩ [.int (-42#32)] =
        some ("    -42".toList.map ch, 7) ∧
      fiveWide.text = "%5d".toList.map ch ∧
      fiveWide.field (-42#32) = "  -42".toList.map ch ∧
      ¬ fiveWide.PrintsField (-42#32) := by
  have hfield : fiveWide.field (-42#32) = "  -42".toList.map ch := by decide +kernel
  refine ⟨by decide +kernel, by decide +kernel, hfield, ?_⟩
  intro h
  have := h 1 ⟨[], true, [], 0#32, -1#32⟩ [0#8] []
  rw [hfield] at this
  exact absurd this (by decide +kernel)

end IntSpec

end Klib
