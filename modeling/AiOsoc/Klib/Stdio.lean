import Mathlib.Logic.Function.Basic

/-!
# Formatted output of klib

`abstract-machine/klib/src/stdio.c` on RV32: `size_t`, `long` and pointers have
32 bits, `long long` has 64. A pointer into a string is the list of the bytes
from it to the end of the object, so `*fmt` is the head and `fmt++` the tail; a
read past the end, a store past the end of `buffer` and a `va_arg` of the wrong
type have no result.
-/

namespace Klib

set_option autoImplicit false

abbrev Byte := BitVec 8
abbrev SizeT := BitVec 32

local instance byteLawful : LawfulBEq Byte := inferInstance

def ch (c : Char) : Byte := BitVec.ofNat 8 c.toNat

/-- A NUL-terminated string, without the NUL. -/
structure CString where
  chars : List Byte
  no_nul : ∀ c ∈ chars, c ≠ 0#8

/-- The bytes of the string object. -/
def CString.bytes (s : CString) : List Byte := s.chars ++ [0#8]

def strlen (s : CString) : SizeT := BitVec.ofNat 32 s.chars.length

/-- An argument of a variadic call, by the type `va_arg` must name. -/
inductive Arg where
  | int (v : BitVec 32)
  | long (v : BitVec 32)
  | llong (v : BitVec 64)
  | ptr (v : BitVec 32)
  | str (s : Option CString)
  | double

/-- `printf_state_t`. `stores` is what was stored through `dest`, with the index,
and `sent` what `putch_fn` was called with, both oldest first; `putchFn` says
that `putch_fn` is not `NULL`. -/
structure PrintfState where
  stores : List (Nat × Byte)
  putchFn : Bool
  sent : List Byte
  count : SizeT
  maxCount : SizeT
  deriving DecidableEq

def printfPutch (st : PrintfState) (c : Byte) : PrintfState :=
  let st :=
    if st.count < st.maxCount then
      if st.putchFn then { st with sent := st.sent ++ [c] }
      else { st with stores := st.stores ++ [(st.count.toNat, c)] }
    else st
  { st with count := st.count + 1#32 }

def printfPad (st : PrintfState) (c : Byte) : Nat → PrintfState
  | 0 => st
  | n + 1 => printfPad (printfPutch st c) c n

/-- `while (*str) printf_putch(state, *str++)`. -/
def printfPuts (st : PrintfState) : List Byte → PrintfState
  | [] => st
  | c :: str => printfPuts (printfPutch st c) str

def printfChar (st : PrintfState) (c : Byte) (width : SizeT) (leftJustified : Bool) :
    PrintfState :=
  let st :=
    if !leftJustified && 1#32 < width then printfPad st (ch ' ') (width - 1#32).toNat else st
  let st := printfPutch st c
  if leftJustified && 1#32 < width then printfPad st (ch ' ') (width - 1#32).toNat else st

/-- The text that stands for a `NULL` string. -/
def nullText : CString := ⟨"(null)".toList.map ch, by decide⟩

def printfString (st : PrintfState) (str : Option CString) (width : SizeT)
    (leftJustified : Bool) : PrintfState :=
  let str := str.getD nullText
  let len := strlen str
  let st :=
    if !leftJustified && len < width then printfPad st (ch ' ') (width - len).toNat else st
  let st := printfPuts st str.chars
  if leftJustified && len < width then printfPad st (ch ' ') (width - len).toNat else st

def digitChar (rem : BitVec 64) (upperCase : Bool) : Byte :=
  if rem < 10#64 then rem.setWidth 8 + ch '0'
  else rem.setWidth 8 - 10#8 + (if upperCase then ch 'A' else ch 'a')

/-- The `do` loop that fills `buffer`, of which `room` places are free. The
digits stored last stand in front, in the order they are printed in. -/
def printfDigits (base : BitVec 64) (upperCase : Bool) :
    Nat → BitVec 64 → List Byte → Option (List Byte)
  | 0, _, _ => none
  | room + 1, n, buffer =>
    let buffer := digitChar (n % base) upperCase :: buffer
    if n / base = 0#64 then some buffer else printfDigits base upperCase room (n / base) buffer

def printfUnsigned (st : PrintfState) (n : BitVec 64) (base : BitVec 64) (width : SizeT)
    (leftJustified : Bool) (padding : Byte) (upperCase : Bool) : Option PrintfState := do
  let buffer ← printfDigits base upperCase 32 n []
  let digits := BitVec.ofNat 32 buffer.length
  let st :=
    if !leftJustified && digits < width then printfPad st padding (width - digits).toNat else st
  let st := printfPuts st buffer
  return if leftJustified && digits < width then printfPad st (ch ' ') (width - digits).toNat
    else st

def printfSigned (st : PrintfState) (n : BitVec 64) (width : SizeT) (leftJustified : Bool)
    (padding sign : Byte) : Option PrintfState :=
  let neg := n.slt 0#64
  let val := if neg then -n else n
  if neg || sign != 0#8 then
    let early := !leftJustified && padding == ch ' ' && 0#32 < width
    let st := if early then printfPad st (ch ' ') (width - 1#32).toNat else st
    let width := if early then 1#32 else width
    let st := printfPutch st (if neg then ch '-' else sign)
    let width := if 0#32 < width then width - 1#32 else width
    printfUnsigned st val 10#64 width leftJustified padding false
  else printfUnsigned st val 10#64 width leftJustified padding false

/-! ## The format string -/

/-- What stands between `%` and the conversion letter. -/
structure Spec where
  leftJustified : Bool
  sign : Byte
  padding : Byte
  width : SizeT
  lengthLevel : Int

def parseFlags (spec : Spec) : List Byte → Option (Spec × List Byte)
  | [] => none
  | c :: fmt =>
    if c = ch '-' then parseFlags { spec with leftJustified := true } fmt
    else if c = ch '+' then parseFlags { spec with sign := ch '+' } fmt
    else if c = ch ' ' then parseFlags { spec with sign := ch ' ' } fmt
    else if c = ch '0' then parseFlags { spec with padding := ch '0' } fmt
    else if c = ch '#' then parseFlags spec fmt
    else some (spec, c :: fmt)

def isDigit (c : Byte) : Bool := ch '0' ≤ c && c ≤ ch '9'

def parseWidth (spec : Spec) : List Byte → Option (Spec × List Byte)
  | [] => none
  | c :: fmt =>
    if isDigit c then
      parseWidth
        { spec with width := spec.width * 10#32 + c.setWidth 32 - (ch '0').setWidth 32 } fmt
    else some (spec, c :: fmt)

def skipDigits : List Byte → Option (List Byte)
  | [] => none
  | c :: fmt => if isDigit c then skipDigits fmt else some (c :: fmt)

def skipPrecision : List Byte → Option (List Byte)
  | [] => none
  | c :: fmt => if c = ch '.' then skipDigits fmt else some (c :: fmt)

def parseLength (spec : Spec) : List Byte → Option (Spec × List Byte)
  | [] => none
  | c :: fmt =>
    if c = ch 'l' then parseLength { spec with lengthLevel := spec.lengthLevel + 1 } fmt
    else if c = ch 'h' then parseLength { spec with lengthLevel := spec.lengthLevel - 1 } fmt
    else some (spec, c :: fmt)

/-- From behind the `%` to the conversion letter. -/
def parseSpec (fmt : List Byte) : Option (Spec × List Byte) := do
  let (spec, fmt) ← parseFlags ⟨false, 0#8, ch ' ', 0#32, 0⟩ fmt
  let (spec, fmt) ← parseWidth spec fmt
  let fmt ← skipPrecision fmt
  parseLength spec fmt

/-! ## Arguments -/

def vaInt : List Arg → Option (BitVec 32 × List Arg)
  | .int v :: ap => some (v, ap)
  | _ => none

def vaLong : List Arg → Option (BitVec 32 × List Arg)
  | .long v :: ap => some (v, ap)
  | _ => none

def vaLlong : List Arg → Option (BitVec 64 × List Arg)
  | .llong v :: ap => some (v, ap)
  | _ => none

def vaPtr : List Arg → Option (BitVec 32 × List Arg)
  | .ptr v :: ap => some (v, ap)
  | _ => none

def vaStr : List Arg → Option (Option CString × List Arg)
  | .str s :: ap => some (s, ap)
  | _ => none

def vaDouble : List Arg → Option (List Arg)
  | .double :: ap => some ap
  | _ => none

/-- The argument of `d` and `i`, converted to `long long`. -/
def vaSigned (lengthLevel : Int) (ap : List Arg) : Option (BitVec 64 × List Arg) :=
  if lengthLevel ≥ 2 then vaLlong ap
  else if lengthLevel = 1 then (vaLong ap).map fun (v, ap) => (v.signExtend 64, ap)
  else (vaInt ap).map fun (v, ap) => (v.signExtend 64, ap)

/-- The argument of `u`, `x`, `X` and `o`, converted to `unsigned long long`. -/
def vaUnsigned (lengthLevel : Int) (ap : List Arg) : Option (BitVec 64 × List Arg) :=
  if lengthLevel ≥ 2 then vaLlong ap
  else if lengthLevel = 1 then (vaLong ap).map fun (v, ap) => (v.setWidth 64, ap)
  else (vaInt ap).map fun (v, ap) => (v.setWidth 64, ap)

/-! ## Conversions -/

/-- `u`, `x`, `X` and `o`. -/
def convertUnsigned (st : PrintfState) (spec : Spec) (base : BitVec 64) (upperCase : Bool)
    (ap : List Arg) : Option (PrintfState × List Arg) := do
  let (n, ap) ← vaUnsigned spec.lengthLevel ap
  let st ← printfUnsigned st n base spec.width spec.leftJustified spec.padding upperCase
  return (st, ap)

/-- The `switch` on the conversion letter, NUL apart. -/
def printfConvert (st : PrintfState) (spec : Spec) (conv : Byte) (ap : List Arg) :
    Option (PrintfState × List Arg) :=
  if conv = ch '%' then some (printfChar st (ch '%') spec.width spec.leftJustified, ap)
  else if conv = ch 'c' then do
    let (v, ap) ← vaInt ap
    return (printfChar st (v.setWidth 8) spec.width spec.leftJustified, ap)
  else if conv = ch 's' then do
    let (s, ap) ← vaStr ap
    return (printfString st s spec.width spec.leftJustified, ap)
  else if conv = ch 'd' ∨ conv = ch 'i' then do
    let (n, ap) ← vaSigned spec.lengthLevel ap
    let st ← printfSigned st n spec.width spec.leftJustified spec.padding spec.sign
    return (st, ap)
  else if conv = ch 'u' then convertUnsigned st spec 10#64 false ap
  else if conv = ch 'p' then do
    let (v, ap) ← vaPtr ap
    let st := printfPutch (printfPutch st (ch '0')) (ch 'x')
    let st ← printfUnsigned st (v.setWidth 64) 16#64 spec.width spec.leftJustified spec.padding
      false
    return (st, ap)
  else if conv = ch 'x' then convertUnsigned st spec 16#64 false ap
  else if conv = ch 'X' then convertUnsigned st spec 16#64 true ap
  else if conv = ch 'o' then convertUnsigned st spec 8#64 false ap
  else if conv ∈ ['f', 'F', 'e', 'E', 'g', 'G', 'a', 'A'].map ch then do
    let ap ← vaDouble ap
    return (st, ap)
  else some (printfPutch (printfPutch st (ch '%')) conv, ap)

/-- The main loop; every turn moves `fmt` by at least one character, so the
length of the format bounds the turns. -/
def printfLoop : Nat → PrintfState → List Byte → List Arg → Option PrintfState
  | 0, _, _, _ => none
  | _ + 1, _, [], _ => none
  | turns + 1, st, c :: fmt, ap =>
    if c = 0#8 then some st
    else if c ≠ ch '%' then printfLoop turns (printfPutch st c) fmt ap
    else
      match parseSpec fmt with
      | some (spec, conv :: fmt) =>
        if conv = 0#8 then some st
        else
          match printfConvert st spec conv ap with
          | some (st, ap) => printfLoop turns st fmt ap
          | none => none
      | _ => none

def printfBackend (st : PrintfState) (fmt : CString) (ap : List Arg) : Option PrintfState :=
  printfLoop fmt.bytes.length st fmt.bytes ap

/-- What `putch` is called with, and the value returned. -/
def printf (fmt : CString) (ap : List Arg) : Option (List Byte × Int) := do
  let st ← printfBackend ⟨[], true, [], 0#32, -1#32⟩ fmt ap
  return (st.sent, st.count.toInt)

/-- The stores to `out`, and the value returned. -/
def vsnprintf (n : SizeT) (fmt : CString) (ap : List Arg) :
    Option (List (Nat × Byte) × Int) := do
  let st ← printfBackend ⟨[], false, [], 0#32, if n = 0#32 then 0#32 else n - 1#32⟩ fmt ap
  let stores :=
    if 0#32 < n then
      st.stores ++ [((if st.count < n then st.count else n - 1#32).toNat, 0#8)]
    else st.stores
  return (stores, st.count.toInt)

def vsprintf (fmt : CString) (ap : List Arg) : Option (List (Nat × Byte) × Int) :=
  vsnprintf (-1#32) fmt ap

def sprintf (fmt : CString) (ap : List Arg) : Option (List (Nat × Byte) × Int) := vsprintf fmt ap

end Klib
