import AiOsoc.Klib.Stdio

/-!
# Number conversion, random numbers and the heap of klib

`abstract-machine/klib/src/stdlib.c` and what it uses of `ctype.c`, on RV32:
`char` is unsigned, `int`, `long` and pointers have 32 bits. As in the model of
`stdio.c` a pointer into a string is the list of the bytes from it to the end of
the object, and a read past the end has no result. Arithmetic wraps around, also
where the types are signed.
-/

namespace Klib

set_option autoImplicit false

attribute [local instance] byteLawful

/-! ## Characters -/

def isspace (c : Byte) : Bool := c == ch ' ' || (ch '\t' ≤ c && c ≤ ch '\r')
def isupper (c : Byte) : Bool := ch 'A' ≤ c && c ≤ ch 'Z'
def islower (c : Byte) : Bool := ch 'a' ≤ c && c ≤ ch 'z'
def isdigit (c : Byte) : Bool := ch '0' ≤ c && c ≤ ch '9'

def digitValue (c : Byte) : Int :=
  if isdigit c then (c.toNat : Int) - (ch '0').toNat
  else if isupper c then (c.toNat : Int) - (ch 'A').toNat + 10
  else if islower c then (c.toNat : Int) - (ch 'a').toNat + 10
  else -1

/-! ## The `strto` family -/

/-- `while (isspace(str[i])) i++`. -/
def skipSpace : List Byte → Option (List Byte)
  | [] => none
  | c :: str => if isspace c then skipSpace str else some (c :: str)

/-- The optional sign, and whether it is a minus. -/
def takeSign : List Byte → Option (Bool × List Byte)
  | [] => none
  | c :: str =>
    if c = ch '+' then some (false, str)
    else if c = ch '-' then some (true, str)
    else some (false, c :: str)

/-- The unsigned functions only know the plus. -/
def takePlus : List Byte → Option (List Byte)
  | [] => none
  | c :: str => if c = ch '+' then some str else some (c :: str)

/-- The base after the prefix. -/
def takePrefix (base : Int) : List Byte → Option (Int × List Byte)
  | [] => none
  | c :: str =>
    if base = 0 then
      if c = ch '0' then
        match str with
        | [] => none
        | d :: rest => if d = ch 'x' ∨ d = ch 'X' then some (16, rest) else some (8, d :: rest)
      else some (10, c :: str)
    else if base = 16 ∧ c = ch '0' then
      match str with
      | [] => none
      | d :: rest => if d = ch 'x' ∨ d = ch 'X' then some (base, rest) else some (base, d :: rest)
    else some (base, c :: str)

/-- The loop over the digits. -/
def takeDigits {w : Nat} (base : Int) (result : BitVec w) :
    List Byte → Option (BitVec w × List Byte)
  | [] => none
  | c :: str =>
    if digitValue c < 0 ∨ digitValue c ≥ base then some (result, c :: str)
    else takeDigits base (result * BitVec.ofInt w base + BitVec.ofInt w (digitValue c)) str

/-- The prefix and the digits. -/
def takeNumber (w : Nat) (base : Int) (str : List Byte) : Option (BitVec w × List Byte) := do
  let (base, str) ← takePrefix base str
  takeDigits base 0#w str

/-- A signed member of the family with a result of `w` bits, and `*endptr`. -/
def strtoSigned (w : Nat) (str : List Byte) (base : Int) : Option (BitVec w × List Byte) :=
  if base ≠ 0 ∧ (base < 2 ∨ base > 36) then some (0#w, str)
  else do
    let str ← skipSpace str
    let (negative, str) ← takeSign str
    let (result, str) ← takeNumber w base str
    return (if negative then -result else result, str)

/-- An unsigned member of the family. -/
def strtoUnsigned (w : Nat) (str : List Byte) (base : Int) : Option (BitVec w × List Byte) :=
  if base ≠ 0 ∧ (base < 2 ∨ base > 36) then some (0#w, str)
  else do
    let str ← skipSpace str
    let str ← takePlus str
    takeNumber w base str

def strtol (str : List Byte) (base : Int) : Option (BitVec 32 × List Byte) :=
  strtoSigned 32 str base

def strtoll (str : List Byte) (base : Int) : Option (BitVec 64 × List Byte) :=
  strtoSigned 64 str base

def strtoul (str : List Byte) (base : Int) : Option (BitVec 32 × List Byte) :=
  strtoUnsigned 32 str base

def strtoull (str : List Byte) (base : Int) : Option (BitVec 64 × List Byte) :=
  strtoUnsigned 64 str base

def atoi (nptr : List Byte) : Option (BitVec 32) := (strtol nptr 10).map Prod.fst
def atol (nptr : List Byte) : Option (BitVec 32) := (strtol nptr 10).map Prod.fst
def atoll (nptr : List Byte) : Option (BitVec 64) := (strtoll nptr 10).map Prod.fst

/-! ## Random numbers -/

def RAND_MAX : BitVec 32 := 32767#32

/-- `rand` with the seed it finds: the number, and the seed it leaves. -/
def rand (randomSeed : BitVec 32) : BitVec 32 × BitVec 32 :=
  let randomSeed := if randomSeed = 0#32 then 0x7a2d5eed#32 else randomSeed
  let feedback := 0#32
  let feedback := feedback ^^^ (randomSeed >>> 31 ||| 1#32)
  let feedback := feedback ^^^ (randomSeed >>> 21 ||| 1#32)
  let feedback := feedback ^^^ (randomSeed >>> 1 ||| 1#32)
  let feedback := feedback ^^^ (randomSeed >>> 0 ||| 1#32)
  let randomSeed := randomSeed >>> 1
  let randomSeed := randomSeed ||| feedback <<< 31
  ((randomSeed >>> 1) % RAND_MAX, randomSeed)

/-- `srand`: the seed it leaves. -/
def srand (seed : BitVec 32) : BitVec 32 := seed

/-! ## The heap -/

/-- `heap`, an area with an aligned end. -/
structure Heap where
  start : BitVec 32
  stop : BitVec 32
  le : start ≤ stop
  aligned : stop.toNat % 4 = 0

def ROUNDUP (a sz : BitVec 32) : BitVec 32 := (a + sz - 1#32) &&& ~~~(sz - 1#32)

/-- `malloc` with the static `ptr` it finds: the block, and the `ptr` it leaves;
zero is `NULL`. -/
def malloc (heap : Heap) (ptr size : BitVec 32) : BitVec 32 × BitVec 32 :=
  let ptr := if ptr = 0#32 then heap.stop else ptr
  let size := ROUNDUP size 4#32
  if ptr - size < heap.start then (0#32, ptr)
  else (ptr - size, ptr - size)

end Klib
