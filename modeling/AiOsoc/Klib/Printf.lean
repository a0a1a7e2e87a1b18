import AiOsoc.Klib.Stdio
import AiOsoc.Numeral
import Mathlib.Algebra.Group.Nat.Defs
import Mathlib.Data.List.Infix
import Mathlib.Tactic.SplitIfs

/-!
# Truncation

Whatever the helpers of `printf_backend` do to the state is the emission of a
list of characters that does not depend on the state. So one format and one
argument list have one output, which `printf` sends and `vsnprintf` truncates.
-/

namespace Klib

set_option autoImplicit false

attribute [local instance] byteLawful

/-! ## Emission -/

/-- The state after the characters `cs` went through `printf_putch`. -/
def emit (st : PrintfState) (cs : List Byte) : PrintfState := cs.foldl printfPutch st

@[simp] theorem emit_nil (st : PrintfState) : emit st [] = st := rfl

@[simp] theorem emit_cons (st : PrintfState) (c : Byte) (cs : List Byte) :
    emit st (c :: cs) = emit (printfPutch st c) cs := rfl

theorem emit_append (st : PrintfState) (cs ds : List Byte) :
    emit st (cs ++ ds) = emit (emit st cs) ds := List.foldl_append

@[simp] theorem printfPutch_count (st : PrintfState) (c : Byte) :
    (printfPutch st c).count = st.count + 1#32 := by
  unfold printfPutch
  split_ifs <;> rfl

@[simp] theorem printfPutch_maxCount (st : PrintfState) (c : Byte) :
    (printfPutch st c).maxCount = st.maxCount := by
  unfold printfPutch
  split_ifs <;> rfl

@[simp] theorem printfPutch_putchFn (st : PrintfState) (c : Byte) :
    (printfPutch st c).putchFn = st.putchFn := by
  unfold printfPutch
  split_ifs <;> rfl

theorem emit_count (st : PrintfState) (cs : List Byte) :
    (emit st cs).count = st.count + BitVec.ofNat 32 cs.length := by
  induction cs generalizing st with
  | nil => simp
  | cons c cs ih =>
    rw [emit_cons, ih, printfPutch_count, List.length_cons, BitVec.add_assoc, ← BitVec.ofNat_add,
      Nat.add_comm]

/-- Below the limit everything is sent. -/
theorem emit_sent (st : PrintfState) (hp : st.putchFn = true) (cs : List Byte)
    (hroom : st.count.toNat + cs.length ≤ st.maxCount.toNat) :
    (emit st cs).sent = st.sent ++ cs := by
  induction cs generalizing st with
  | nil => simp
  | cons c cs ih =>
    have hlt : st.count < st.maxCount := by
      rw [BitVec.lt_def]
      simp only [List.length_cons] at hroom
      omega
    have hcount : (st.count + 1#32).toNat = st.count.toNat + 1 := by
      have := st.maxCount.isLt
      simp only [List.length_cons] at hroom
      rw [BitVec.toNat_add, BitVec.toNat_ofNat]
      omega
    have hsent : (printfPutch st c).sent = st.sent ++ [c] := by simp [printfPutch, hlt, hp]
    rw [emit_cons, ih _ (by rw [printfPutch_putchFn, hp]), hsent, List.append_assoc]
    · rfl
    · simp only [List.length_cons] at hroom
      rw [printfPutch_count, printfPutch_maxCount, hcount]
      omega

theorem sent_prefix_emit (st : PrintfState) (cs : List Byte) : st.sent <+: (emit st cs).sent := by
  induction cs generalizing st with
  | nil => exact List.prefix_rfl
  | cons c cs ih =>
    refine List.IsPrefix.trans ?_ (ih (printfPutch st c))
    unfold printfPutch
    split_ifs
    · exact List.prefix_append _ _
    · exact List.prefix_rfl
    · exact List.prefix_rfl

/-- One character in `2 ^ 32` is not sent, when the counter is at its limit. -/
theorem emit_sent_length (st : PrintfState) (hp : st.putchFn = true) (hmax : st.maxCount = -1#32)
    (cs : List Byte) : (emit st cs).sent.length + (st.count.toNat + cs.length) / 2 ^ 32 =
      st.sent.length + cs.length := by
  induction cs generalizing st with
  | nil =>
    rw [emit_nil, List.length_nil, Nat.add_zero, Nat.div_eq_of_lt st.count.isLt]
  | cons c cs ih =>
    have hlt := st.count.isLt
    have hcount : (st.count + 1#32).toNat = (st.count.toNat + 1) % 2 ^ 32 := BitVec.toNat_add _ _
    have hlim : st.count < st.maxCount ↔ st.count.toNat < 2 ^ 32 - 1 := by
      rw [hmax, BitVec.lt_def]
      rfl
    have hsent : (printfPutch st c).sent.length =
        st.sent.length + if st.count.toNat < 2 ^ 32 - 1 then 1 else 0 := by
      unfold printfPutch
      simp only [hlim, hp]
      split_ifs <;> simp
    have := ih (printfPutch st c) (by simpa using hp) (by simpa using hmax)
    rw [hsent, printfPutch_count, hcount] at this
    rw [emit_cons, List.length_cons]
    split_ifs at this <;> omega

section SameEmission
variable {cs ds : List Byte}
  (h : emit ⟨[], true, [], 0#32, -1#32⟩ cs = emit ⟨[], true, [], 0#32, -1#32⟩ ds)
include h

/-- What is printed determines how much was emitted, also beyond the counter. -/
theorem length_eq_of_emit : cs.length = ds.length := by
  have hc := emit_sent_length ⟨[], true, [], 0#32, -1#32⟩ rfl rfl cs
  have hd := emit_sent_length ⟨[], true, [], 0#32, -1#32⟩ rfl rfl ds
  have hcount : cs.length % 2 ^ 32 = ds.length % 2 ^ 32 := by
    have := congrArg (fun st => st.count.toNat) h
    simpa only [emit_count, BitVec.zero_add, BitVec.toNat_ofNat] using this
  rw [h] at hc
  simp only [List.length_nil, BitVec.toNat_ofNat, Nat.zero_mod, Nat.zero_add] at hc hd
  omega

theorem head_eq_of_emit {c d : Byte} {cs' ds' : List Byte} (hc : cs = c :: cs')
    (hd : ds = d :: ds') : c = d := by
  have first : ∀ (e : Byte) (es : List Byte),
      [e] <+: (emit ⟨[], true, [], 0#32, -1#32⟩ (e :: es)).sent := by
    intro e es
    exact sent_prefix_emit (printfPutch ⟨[], true, [], 0#32, -1#32⟩ e) es
  subst hc hd
  have hpre := h ▸ first c cs'
  obtain ⟨r1, h1⟩ := hpre
  obtain ⟨r2, h2⟩ := first d ds'
  rw [← h2] at h1
  exact (List.cons.inj h1).1

end SameEmission

/-- The stores of consecutive characters from index `k` on. -/
def storesFrom (k : Nat) : List Byte → List (Nat × Byte)
  | [] => []
  | c :: cs => (k, c) :: storesFrom (k + 1) cs

theorem storesFrom_lt (k : Nat) (cs : List Byte) :
    ∀ s ∈ storesFrom k cs, s.1 < k + cs.length := by
  induction cs generalizing k with
  | nil => simp [storesFrom]
  | cons c cs ih =>
    intro s hs
    simp only [storesFrom, List.mem_cons] at hs
    rcases hs with rfl | hs
    · simp
    · have := ih (k + 1) s hs
      simp only [List.length_cons]
      omega

/-- Below the limit everything is stored, above it nothing. -/
theorem emit_stores (st : PrintfState) (hp : st.putchFn = false) (cs : List Byte)
    (hroom : st.count.toNat + cs.length < 2 ^ 32) :
    (emit st cs).stores = st.stores ++
      storesFrom st.count.toNat (cs.take (st.maxCount.toNat - st.count.toNat)) := by
  induction cs generalizing st with
  | nil => simp [storesFrom]
  | cons c cs ih =>
    simp only [List.length_cons] at hroom
    have hcount : (st.count + 1#32).toNat = st.count.toNat + 1 := by
      rw [BitVec.toNat_add, BitVec.toNat_ofNat]
      omega
    have hroom' : (printfPutch st c).count.toNat + cs.length < 2 ^ 32 := by
      rw [printfPutch_count, hcount]
      omega
    rw [emit_cons, ih _ (by rw [printfPutch_putchFn, hp]) hroom', printfPutch_count,
      printfPutch_maxCount, hcount]
    by_cases hlt : st.count.toNat < st.maxCount.toNat
    · have hstores : (printfPutch st c).stores = st.stores ++ [(st.count.toNat, c)] := by
        simp [printfPutch, BitVec.lt_def, hlt, hp]
      obtain ⟨k, hk⟩ : ∃ k, st.maxCount.toNat - st.count.toNat = k + 1 :=
        ⟨st.maxCount.toNat - st.count.toNat - 1, by omega⟩
      have hk' : st.maxCount.toNat - (st.count.toNat + 1) = k := by omega
      rw [hstores, hk, hk', List.append_assoc]
      rfl
    · have hstores : (printfPutch st c).stores = st.stores := by
        simp [printfPutch, BitVec.lt_def, hlt]
      have hk : st.maxCount.toNat - st.count.toNat = 0 := by omega
      have hk' : st.maxCount.toNat - (st.count.toNat + 1) = 0 := by omega
      rw [hstores, hk, hk']
      rfl

/-! ## The helpers emit -/

theorem printfPad_eq (st : PrintfState) (c : Byte) (n : Nat) :
    printfPad st c n = emit st (List.replicate n c) := by
  induction n generalizing st with
  | zero => rfl
  | succ n ih =>
    rw [printfPad, ih, List.replicate_succ, emit_cons]

theorem printfPuts_eq (st : PrintfState) (cs : List Byte) : printfPuts st cs = emit st cs := by
  induction cs generalizing st with
  | nil => rfl
  | cons c cs ih =>
    rw [printfPuts, ih, emit_cons]

/-- Padding in front of or behind a field, or none. -/
def padField (pad : Bool) (c : Byte) (n : SizeT) : List Byte :=
  if pad then List.replicate n.toNat c else []

theorem pad_eq (st : PrintfState) (pad : Bool) (c : Byte) (n : SizeT) :
    (if pad then printfPad st c n.toNat else st) = emit st (padField pad c n) := by
  cases pad with
  | false => rfl
  | true => simp [padField, printfPad_eq]

theorem printfChar_emits (c : Byte) (width : SizeT) (left : Bool) :
    ∃ cs, ∀ st, printfChar st c width left = emit st cs := by
  refine ⟨padField (!left && 1#32 < width) (ch ' ') (width - 1#32) ++ [c] ++
    padField (left && 1#32 < width) (ch ' ') (width - 1#32), ?_⟩
  intro st
  simp only [printfChar, pad_eq, emit_append, emit_cons, emit_nil]

theorem printfString_emits (str : Option CString) (width : SizeT) (left : Bool) :
    ∃ cs, ∀ st, printfString st str width left = emit st cs := by
  refine ⟨padField (!left && strlen (str.getD nullText) < width) (ch ' ')
      (width - strlen (str.getD nullText)) ++ (str.getD nullText).chars ++
    padField (left && strlen (str.getD nullText) < width) (ch ' ')
      (width - strlen (str.getD nullText)), ?_⟩
  intro st
  simp only [printfString, pad_eq, printfPuts_eq, emit_append]

/-- The character of a digit. -/
def digitText (upper : Bool) (d : Nat) : Byte :=
  if d < 10 then ch '0' + BitVec.ofNat 8 d
  else (if upper then ch 'A' else ch 'a') + BitVec.ofNat 8 (d - 10)

theorem digitChar_eq (upper : Bool) (d : BitVec 64) :
    digitChar d upper = digitText upper d.toNat := by
  have hten : d < 10#64 ↔ d.toNat < 10 := by rw [BitVec.lt_def]; rfl
  unfold digitChar digitText
  by_cases h : d.toNat < 10
  · rw [if_pos h, if_pos (hten.mpr h), BitVec.add_comm]
    rfl
  · have hsub : BitVec.setWidth 8 d - 10#8 = BitVec.ofNat 8 (d.toNat - 10) := by
      apply BitVec.eq_of_toNat_eq
      simp only [BitVec.toNat_sub, BitVec.toNat_setWidth, BitVec.toNat_ofNat]
      omega
    rw [if_neg h, if_neg (fun hlt => h (hten.mp hlt)), hsub, BitVec.add_comm]

/-- A number that fits into `buffer` is written with its digits. -/
theorem printfDigits_eq {base : BitVec 64} (upper : Bool) (hb : 2 ≤ base.toNat) (room : Nat)
    (n : BitVec 64) (buffer : List Byte) (hn : n.toNat < base.toNat ^ (room + 1)) :
    printfDigits base upper (room + 1) n buffer =
      some ((Numeral.digits base.toNat n.toNat).map (digitText upper) ++ buffer) := by
  have hrem : ∀ m, digitChar (m % base) upper = digitText upper (m.toNat % base.toNat) := by
    intro m
    rw [digitChar_eq, BitVec.toNat_umod]
  induction room generalizing n buffer with
  | zero =>
    have hlt : n.toNat < base.toNat := by simpa using hn
    have hz : n / base = 0#64 := by
      apply BitVec.eq_of_toNat_eq
      rw [BitVec.toNat_udiv]
      exact Nat.div_eq_of_lt hlt
    rw [printfDigits, if_pos hz, hrem, Nat.mod_eq_of_lt hlt, Numeral.digits_of_lt hlt]
    rfl
  | succ room ih =>
    rw [printfDigits, hrem]
    by_cases hlt : n.toNat < base.toNat
    · have hz : n / base = 0#64 := by
        apply BitVec.eq_of_toNat_eq
        rw [BitVec.toNat_udiv]
        exact Nat.div_eq_of_lt hlt
      rw [if_pos hz, Nat.mod_eq_of_lt hlt, Numeral.digits_of_lt hlt]
      rfl
    · have hz : n / base ≠ 0#64 := by
        intro h
        have := congrArg BitVec.toNat h
        rw [BitVec.toNat_udiv] at this
        exact Nat.ne_of_gt (Nat.div_pos (Nat.le_of_not_lt hlt) (by omega)) this
      have hq : (n / base).toNat < base.toNat ^ (room + 1) := by
        rw [BitVec.toNat_udiv, Nat.div_lt_iff_lt_mul (by omega)]
        rwa [← Nat.pow_succ]
      rw [if_neg hz, ih _ _ hq, BitVec.toNat_udiv,
        Numeral.digits_div (by omega) (Nat.le_of_not_lt hlt), List.map_append,
        List.append_assoc]
      rfl

/-- The bases in use are at least eight, so 32 places are enough. -/
theorem printfDigits_fits {base : BitVec 64} (upper : Bool) (hb : 8 ≤ base.toNat)
    (n : BitVec 64) : printfDigits base upper 32 n [] =
      some ((Numeral.digits base.toNat n.toNat).map (digitText upper)) := by
  have hn : n.toNat < base.toNat ^ (31 + 1) := by
    calc n.toNat < 2 ^ 64 := n.isLt
      _ ≤ 8 ^ 32 := by decide
      _ ≤ base.toNat ^ 32 := Nat.pow_le_pow_left hb 32
  rw [printfDigits_eq upper (by omega) 31 n [] hn, List.append_nil]

/-- The characters `printf_unsigned` emits, with the digits in `buffer`. -/
def unsignedChars (buffer : List Byte) (width : SizeT) (left : Bool) (padding : Byte) :
    List Byte :=
  padField (!left && BitVec.ofNat 32 buffer.length < width) padding
      (width - BitVec.ofNat 32 buffer.length) ++ buffer ++
    padField (left && BitVec.ofNat 32 buffer.length < width) (ch ' ')
      (width - BitVec.ofNat 32 buffer.length)

theorem printfUnsigned_eq {n base : BitVec 64} {upper : Bool} {buffer : List Byte}
    (hbuf : printfDigits base upper 32 n [] = some buffer) (st : PrintfState) (width : SizeT)
    (left : Bool) (padding : Byte) :
    printfUnsigned st n base width left padding upper =
      some (emit st (unsignedChars buffer width left padding)) := by
  simp only [printfUnsigned, hbuf, Option.bind_eq_bind, Option.bind_some, pad_eq, printfPuts_eq,
    unsignedChars, emit_append]
  rfl

/-- The characters `printf_signed` emits, with the digits of the magnitude. -/
def signedChars (buffer : List Byte) (neg : Bool) (width : SizeT) (left : Bool)
    (padding sign : Byte) : List Byte :=
  if neg || sign != 0#8 then
    let early := !left && padding == ch ' ' && 0#32 < width
    let rest := if early then 1#32 else width
    padField early (ch ' ') (width - 1#32) ++ [if neg then ch '-' else sign] ++
      unsignedChars buffer (if 0#32 < rest then rest - 1#32 else rest) left padding
  else unsignedChars buffer width left padding

theorem printfSigned_eq {n : BitVec 64} {buffer : List Byte}
    (hbuf : printfDigits 10#64 false 32 (if n.slt 0#64 then -n else n) [] = some buffer)
    (st : PrintfState) (width : SizeT) (left : Bool) (padding sign : Byte) :
    printfSigned st n width left padding sign =
      some (emit st (signedChars buffer (n.slt 0#64) width left padding sign)) := by
  by_cases hs : (n.slt 0#64 || sign != 0#8) = true
  · simp only [printfSigned, signedChars, hs, if_true, pad_eq, printfUnsigned_eq hbuf, emit_append,
      emit_cons, emit_nil]
  · rw [printfSigned, signedChars]
    simp only [hs, printfUnsigned_eq hbuf]
    rfl

theorem printfUnsigned_emits (n : BitVec 64) {base : BitVec 64} (hb : 8 ≤ base.toNat)
    (width : SizeT) (left : Bool) (padding : Byte) (upper : Bool) :
    ∃ cs, ∀ st, printfUnsigned st n base width left padding upper = some (emit st cs) :=
  ⟨_, fun st => printfUnsigned_eq (printfDigits_fits upper hb n) st width left padding⟩

theorem printfSigned_emits (n : BitVec 64) (width : SizeT) (left : Bool) (padding sign : Byte) :
    ∃ cs, ∀ st, printfSigned st n width left padding sign = some (emit st cs) :=
  ⟨_, fun st => printfSigned_eq (printfDigits_fits false (by decide) _) st width left padding sign⟩

/-! ## Supported arguments -/

inductive ArgKind where
  | int | long | llong | ptr | str | double
  deriving Repr, DecidableEq

def Arg.kind : Arg → ArgKind
  | .int _ => .int
  | .long _ => .long
  | .llong _ => .llong
  | .ptr _ => .ptr
  | .str _ => .str
  | .double => .double

/-- The integer type selected by the length letters. -/
def Spec.intKind (spec : Spec) : ArgKind :=
  if spec.lengthLevel ≥ 2 then .llong else if spec.lengthLevel = 1 then .long else .int

/-- The type of the argument a conversion takes, if it takes one. -/
def convKind (spec : Spec) (conv : Byte) : Option ArgKind :=
  if conv = ch 'c' then some .int
  else if conv = ch 's' then some .str
  else if conv ∈ ['d', 'i', 'u', 'x', 'X', 'o'].map ch then some spec.intKind
  else if conv = ch 'p' then some .ptr
  else if conv ∈ ['f', 'F', 'e', 'E', 'g', 'G', 'a', 'A'].map ch then some .double
  else none

/-- The types of the arguments a format takes. -/
def argKinds : Nat → List Byte → List ArgKind
  | 0, _ => []
  | _ + 1, [] => []
  | turns + 1, c :: fmt =>
    if c = 0#8 then []
    else if c ≠ ch '%' then argKinds turns fmt
    else
      match parseSpec fmt with
      | some (spec, conv :: fmt) =>
        if conv = 0#8 then [] else (convKind spec conv).toList ++ argKinds turns fmt
      | _ => []

/-- The arguments are those the format takes, perhaps with more behind them. -/
def Supplies (fmt : CString) (ap : List Arg) : Prop :=
  argKinds fmt.bytes.length fmt.bytes <+: ap.map Arg.kind

instance (fmt : CString) (ap : List Arg) : Decidable (Supplies fmt ap) :=
  inferInstanceAs (Decidable (_ <+: _))

/-- The list begins with an argument of the type, if one is asked for. -/
def Offers (ap : List Arg) (kind : Option ArgKind) (rest : List Arg) : Prop :=
  match kind with
  | none => rest = ap
  | some k => ∃ a, a.kind = k ∧ ap = a :: rest

theorem vaInt_offers {ap rest : List Arg} (h : Offers ap (some .int) rest) :
    ∃ v, vaInt ap = some (v, rest) := by
  obtain ⟨a, ha, rfl⟩ := h
  cases a <;> first | exact ⟨_, rfl⟩ | cases ha

theorem vaLong_offers {ap rest : List Arg} (h : Offers ap (some .long) rest) :
    ∃ v, vaLong ap = some (v, rest) := by
  obtain ⟨a, ha, rfl⟩ := h
  cases a <;> first | exact ⟨_, rfl⟩ | cases ha

theorem vaLlong_offers {ap rest : List Arg} (h : Offers ap (some .llong) rest) :
    ∃ v, vaLlong ap = some (v, rest) := by
  obtain ⟨a, ha, rfl⟩ := h
  cases a <;> first | exact ⟨_, rfl⟩ | cases ha

theorem vaPtr_offers {ap rest : List Arg} (h : Offers ap (some .ptr) rest) :
    ∃ v, vaPtr ap = some (v, rest) := by
  obtain ⟨a, ha, rfl⟩ := h
  cases a <;> first | exact ⟨_, rfl⟩ | cases ha

theorem vaStr_offers {ap rest : List Arg} (h : Offers ap (some .str) rest) :
    ∃ s, vaStr ap = some (s, rest) := by
  obtain ⟨a, ha, rfl⟩ := h
  cases a <;> first | exact ⟨_, rfl⟩ | cases ha

theorem vaDouble_offers {ap rest : List Arg} (h : Offers ap (some .double) rest) :
    vaDouble ap = some rest := by
  obtain ⟨a, ha, rfl⟩ := h
  cases a <;> first | rfl | cases ha

theorem vaSigned_offers {spec : Spec} {ap rest : List Arg}
    (h : Offers ap (some spec.intKind) rest) :
    ∃ v, vaSigned spec.lengthLevel ap = some (v, rest) := by
  unfold Spec.intKind at h
  unfold vaSigned
  split_ifs at h ⊢
  · exact vaLlong_offers h
  · obtain ⟨v, hv⟩ := vaLong_offers h
    exact ⟨_, by rw [hv]; rfl⟩
  · obtain ⟨v, hv⟩ := vaInt_offers h
    exact ⟨_, by rw [hv]; rfl⟩

theorem vaUnsigned_offers {spec : Spec} {ap rest : List Arg}
    (h : Offers ap (some spec.intKind) rest) :
    ∃ v, vaUnsigned spec.lengthLevel ap = some (v, rest) := by
  unfold Spec.intKind at h
  unfold vaUnsigned
  split_ifs at h ⊢
  · exact vaLlong_offers h
  · obtain ⟨v, hv⟩ := vaLong_offers h
    exact ⟨_, by rw [hv]; rfl⟩
  · obtain ⟨v, hv⟩ := vaInt_offers h
    exact ⟨_, by rw [hv]; rfl⟩

/-! ## Conversions emit -/

/-- An operation on state and arguments that emits and leaves `rest`. -/
def Emits (f : PrintfState → Option (PrintfState × List Arg)) (rest : List Arg) : Prop :=
  ∃ cs, ∀ st, f st = some (emit st cs, rest)

section Convert
variable {spec : Spec} {ap rest : List Arg}

theorem convertUnsigned_emits {base : BitVec 64} (hb : 8 ≤ base.toNat) (upper : Bool)
    (h : Offers ap (some spec.intKind) rest) :
    Emits (fun st => convertUnsigned st spec base upper ap) rest := by
  obtain ⟨n, hn⟩ := vaUnsigned_offers h
  obtain ⟨cs, hcs⟩ := printfUnsigned_emits n hb spec.width spec.leftJustified spec.padding upper
  refine ⟨cs, ?_⟩
  intro st
  simp only [convertUnsigned, hn, hcs, Option.bind_eq_bind, Option.bind_some]
  rfl

theorem printfConvert_emits {conv : Byte} (h : Offers ap (convKind spec conv) rest) :
    Emits (fun st => printfConvert st spec conv ap) rest := by
  by_cases hpct : conv = ch '%'
  · subst hpct
    obtain rfl : rest = ap := h
    obtain ⟨cs, hcs⟩ := printfChar_emits (ch '%') spec.width spec.leftJustified
    exact ⟨cs, fun st => by rw [← hcs]; rfl⟩
  by_cases hc : conv = ch 'c'
  · subst hc
    obtain ⟨v, hv⟩ := vaInt_offers h
    obtain ⟨cs, hcs⟩ := printfChar_emits (v.setWidth 8) spec.width spec.leftJustified
    refine ⟨cs, fun st => ?_⟩
    show (vaInt ap).bind _ = _
    rw [hv, ← hcs]
    rfl
  by_cases hs : conv = ch 's'
  · subst hs
    obtain ⟨s, hs⟩ := vaStr_offers h
    obtain ⟨cs, hcs⟩ := printfString_emits s spec.width spec.leftJustified
    refine ⟨cs, fun st => ?_⟩
    show (vaStr ap).bind _ = _
    rw [hs, ← hcs]
    rfl
  by_cases hd : conv = ch 'd' ∨ conv = ch 'i'
  · have hk : Offers ap (some spec.intKind) rest := by
      rcases hd with rfl | rfl <;> exact h
    obtain ⟨n, hn⟩ := vaSigned_offers hk
    obtain ⟨cs, hcs⟩ := printfSigned_emits n spec.width spec.leftJustified spec.padding spec.sign
    refine ⟨cs, fun st => ?_⟩
    simp only [printfConvert, hpct, hc, hs, hd, if_true, if_false, hn, hcs, Option.bind_eq_bind,
      Option.bind_some]
    rfl
  by_cases hu : conv = ch 'u'
  · subst hu
    exact convertUnsigned_emits (by decide) false h
  by_cases hp : conv = ch 'p'
  · subst hp
    obtain ⟨v, hv⟩ := vaPtr_offers h
    obtain ⟨cs, hcs⟩ := printfUnsigned_emits (v.setWidth 64)
      (show 8 ≤ (16#64).toNat by decide) spec.width spec.leftJustified spec.padding false
    refine ⟨ch '0' :: ch 'x' :: cs, fun st => ?_⟩
    show (vaPtr ap).bind _ = _
    simp only [hv, Option.bind_some, hcs, Option.bind_eq_bind]
    rfl
  by_cases hx : conv = ch 'x'
  · subst hx
    exact convertUnsigned_emits (by decide) false h
  by_cases hX : conv = ch 'X'
  · subst hX
    exact convertUnsigned_emits (by decide) true h
  by_cases ho : conv = ch 'o'
  · subst ho
    exact convertUnsigned_emits (by decide) false h
  have hdi : ¬ conv ∈ ['d', 'i', 'u', 'x', 'X', 'o'].map ch := by
    simp only [not_or] at hd
    simp [hd, hu, hx, hX, ho]
  by_cases hf : conv ∈ ['f', 'F', 'e', 'E', 'g', 'G', 'a', 'A'].map ch
  · have hk : convKind spec conv = some .double := by
      simp only [convKind, hc, hs, hdi, hp, hf, if_true, if_false]
    rw [hk] at h
    refine ⟨[], fun st => ?_⟩
    simp only [printfConvert, hpct, hc, hs, hd, hu, hp, hx, hX, ho, hf, if_true, if_false,
      vaDouble_offers h]
    rfl
  · have hk : convKind spec conv = none := by
      simp only [convKind, hc, hs, hdi, hp, hf, if_false]
    rw [hk] at h
    obtain rfl : rest = ap := h
    refine ⟨[ch '%', conv], fun st => ?_⟩
    simp only [printfConvert, hpct, hc, hs, hd, hu, hp, hx, hX, ho, hf, if_false]
    rfl

end Convert

/-! ## The format is not overrun -/

/-- The bytes up to the end of a NUL-terminated string. -/
def Terminated (fmt : List Byte) : Prop := ∃ s : CString, fmt = s.bytes

theorem Terminated.ne_nil {fmt : List Byte} (h : Terminated fmt) : fmt ≠ [] := by
  obtain ⟨s, rfl⟩ := h
  simp [CString.bytes]

/-- Behind a character that is not the NUL the string goes on. -/
theorem Terminated.tail {c : Byte} {fmt : List Byte} (h : Terminated (c :: fmt)) (hc : c ≠ 0#8) :
    Terminated fmt := by
  obtain ⟨⟨chars, hno⟩, hs⟩ := h
  cases chars with
  | nil =>
    have : c = 0#8 := by
      simp only [CString.bytes, List.nil_append, List.cons.injEq] at hs
      exact hs.1
    exact absurd this hc
  | cons d chars =>
    simp only [CString.bytes, List.cons_append, List.cons.injEq] at hs
    exact ⟨⟨chars, fun e he => hno e (List.mem_cons_of_mem d he)⟩, hs.2⟩

/-- A parser reads no further than the NUL, and does not move it back. -/
def StaysInside {α : Type} (p : List Byte → Option (α × List Byte)) : Prop :=
  ∀ fmt, Terminated fmt → ∃ v rest, p fmt = some (v, rest) ∧ Terminated rest ∧
    rest.length ≤ fmt.length

theorem parseFlags_inside (spec : Spec) : StaysInside (parseFlags spec) := by
  intro fmt
  induction fmt generalizing spec with
  | nil => exact fun h => absurd rfl h.ne_nil
  | cons c fmt ih =>
    intro h
    have step : ∀ spec', c ≠ 0#8 → ∃ v rest, parseFlags spec' fmt = some (v, rest) ∧
        Terminated rest ∧ rest.length ≤ (c :: fmt).length := by
      intro spec' hc
      obtain ⟨v, rest, hp, ht, hl⟩ := ih spec' (h.tail hc)
      exact ⟨v, rest, hp, ht, Nat.le_succ_of_le hl⟩
    unfold parseFlags
    split_ifs with h1 h2 h3 h4 h5
    · exact step _ (by rw [h1]; decide)
    · exact step _ (by rw [h2]; decide)
    · exact step _ (by rw [h3]; decide)
    · exact step _ (by rw [h4]; decide)
    · exact step _ (by rw [h5]; decide)
    · exact ⟨spec, c :: fmt, rfl, h, Nat.le_refl _⟩

theorem digit_ne_nul {c : Byte} (h : isDigit c = true) : c ≠ 0#8 := by
  rintro rfl
  exact absurd h (by decide)

theorem parseWidth_inside (spec : Spec) : StaysInside (parseWidth spec) := by
  intro fmt
  induction fmt generalizing spec with
  | nil => exact fun h => absurd rfl h.ne_nil
  | cons c fmt ih =>
    intro h
    unfold parseWidth
    split_ifs with hd
    · obtain ⟨v, rest, hp, ht, hl⟩ := ih _ (h.tail (digit_ne_nul hd))
      exact ⟨v, rest, hp, ht, Nat.le_succ_of_le hl⟩
    · exact ⟨spec, c :: fmt, rfl, h, Nat.le_refl _⟩

theorem skipDigits_inside (fmt : List Byte) (h : Terminated fmt) :
    ∃ rest, skipDigits fmt = some rest ∧ Terminated rest ∧ rest.length ≤ fmt.length := by
  induction fmt with
  | nil => exact absurd rfl h.ne_nil
  | cons c fmt ih =>
    unfold skipDigits
    split_ifs with hd
    · obtain ⟨rest, hp, ht, hl⟩ := ih (h.tail (digit_ne_nul hd))
      exact ⟨rest, hp, ht, Nat.le_succ_of_le hl⟩
    · exact ⟨c :: fmt, rfl, h, Nat.le_refl _⟩

theorem skipPrecision_inside (fmt : List Byte) (h : Terminated fmt) :
    ∃ rest, skipPrecision fmt = some rest ∧ Terminated rest ∧ rest.length ≤ fmt.length := by
  cases fmt with
  | nil => exact absurd rfl h.ne_nil
  | cons c fmt =>
    simp only [skipPrecision]
    split_ifs with hd
    · obtain ⟨rest, hp, ht, hl⟩ := skipDigits_inside fmt (h.tail (by rw [hd]; decide))
      exact ⟨rest, hp, ht, Nat.le_succ_of_le hl⟩
    · exact ⟨c :: fmt, rfl, h, Nat.le_refl _⟩

theorem parseLength_inside (spec : Spec) : StaysInside (parseLength spec) := by
  intro fmt
  induction fmt generalizing spec with
  | nil => exact fun h => absurd rfl h.ne_nil
  | cons c fmt ih =>
    intro h
    have step : ∀ spec', c ≠ 0#8 → ∃ v rest, parseLength spec' fmt = some (v, rest) ∧
        Terminated rest ∧ rest.length ≤ (c :: fmt).length := by
      intro spec' hc
      obtain ⟨v, rest, hp, ht, hl⟩ := ih spec' (h.tail hc)
      exact ⟨v, rest, hp, ht, Nat.le_succ_of_le hl⟩
    unfold parseLength
    split_ifs with h1 h2
    · exact step _ (by rw [h1]; decide)
    · exact step _ (by rw [h2]; decide)
    · exact ⟨spec, c :: fmt, rfl, h, Nat.le_refl _⟩

theorem parseSpec_inside : StaysInside parseSpec := by
  intro fmt h
  obtain ⟨spec1, fmt1, h1, ht1, hl1⟩ := parseFlags_inside ⟨false, 0#8, ch ' ', 0#32, 0⟩ fmt h
  obtain ⟨spec2, fmt2, h2, ht2, hl2⟩ := parseWidth_inside spec1 fmt1 ht1
  obtain ⟨fmt3, h3, ht3, hl3⟩ := skipPrecision_inside fmt2 ht2
  obtain ⟨spec4, fmt4, h4, ht4, hl4⟩ := parseLength_inside spec2 fmt3 ht3
  refine ⟨spec4, fmt4, ?_, ht4, by omega⟩
  simp only [parseSpec, h1, h2, h3, h4, Option.bind_eq_bind, Option.bind_some]

/-! ## The whole output -/

theorem offers_of_prefix {kind : Option ArgKind} {kinds : List ArgKind} {ap : List Arg}
    (h : kind.toList ++ kinds <+: ap.map Arg.kind) :
    ∃ rest, Offers ap kind rest ∧ kinds <+: rest.map Arg.kind := by
  cases kind with
  | none => exact ⟨ap, rfl, h⟩
  | some k =>
    cases ap with
    | nil => exact absurd (List.prefix_nil.mp h) (by simp)
    | cons a ap =>
      simp only [Option.toList_some, List.singleton_append, List.map_cons,
        List.cons_prefix_cons] at h
      exact ⟨ap, ⟨a, h.1.symm, rfl⟩, h.2⟩

/-- The main loop emits, with the turns it has. -/
theorem printfLoop_emits (turns : Nat) (fmt : List Byte) (ap : List Arg) (ht : Terminated fmt)
    (hlen : fmt.length ≤ turns) (hap : argKinds turns fmt <+: ap.map Arg.kind) :
    ∃ cs, ∀ st, printfLoop turns st fmt ap = some (emit st cs) := by
  induction turns generalizing fmt ap with
  | zero =>
    have hnil : fmt = [] := List.eq_nil_of_length_eq_zero (Nat.le_zero.mp hlen)
    exact absurd hnil ht.ne_nil
  | succ turns ih =>
    cases fmt with
    | nil => exact absurd rfl ht.ne_nil
    | cons c fmt =>
      simp only [List.length_cons, Nat.add_le_add_iff_right] at hlen
      by_cases hc : c = 0#8
      · exact ⟨[], fun st => by simp [printfLoop, hc]⟩
      by_cases hp : c = ch '%'
      · subst hp
        obtain ⟨spec, rest, hspec, htr, hlr⟩ := parseSpec_inside fmt (ht.tail hc)
        cases rest with
        | nil => exact absurd rfl htr.ne_nil
        | cons conv rest =>
          simp only [List.length_cons] at hlr
          by_cases hz : conv = 0#8
          · exact ⟨[], fun st => by simp [printfLoop, hspec, hz, ch]⟩
          · simp only [argKinds, hc, hspec, hz, ne_eq, not_true_eq_false, if_false] at hap
            obtain ⟨ap', hoff, hap'⟩ := offers_of_prefix hap
            obtain ⟨cs, hcs⟩ := printfConvert_emits hoff
            obtain ⟨ds, hds⟩ := ih rest ap' (htr.tail hz) (by omega) hap'
            refine ⟨cs ++ ds, fun st => ?_⟩
            simp only [printfLoop, hc, hspec, hz, ne_eq, not_true_eq_false, if_false, hcs, hds,
              emit_append]
      · simp only [argKinds, hc, hp, ne_eq, not_false_eq_true, if_true, if_false] at hap
        obtain ⟨ds, hds⟩ := ih fmt ap (ht.tail hc) hlen hap
        refine ⟨c :: ds, fun st => ?_⟩
        simp only [printfLoop, hc, hp, ne_eq, not_false_eq_true, if_true, if_false, hds, emit_cons]

theorem printfBackend_emits {fmt : CString} {ap : List Arg} (h : Supplies fmt ap) :
    ∃ cs, ∀ st, printfBackend st fmt ap = some (emit st cs) :=
  printfLoop_emits _ _ _ ⟨fmt, rfl⟩ (Nat.le_refl _) h

def INT_MAX : Nat := 2147483647

/-- An output that is short enough to be counted is sent as it is. -/
theorem sent_eq {cs : List Byte}
    (h : (emit ⟨[], true, [], 0#32, -1#32⟩ cs).sent.length ≤ INT_MAX) :
    (emit ⟨[], true, [], 0#32, -1#32⟩ cs).sent = cs ∧ cs.length ≤ INT_MAX := by
  have hmax : (-1#32).toNat = 2 ^ 32 - 1 := by decide
  by_cases hlen : cs.length ≤ 2 ^ 32 - 1
  · have hsent := emit_sent ⟨[], true, [], 0#32, -1#32⟩ rfl cs
      (by simpa [hmax] using hlen)
    rw [List.nil_append] at hsent
    rw [hsent] at h ⊢
    exact ⟨rfl, h⟩
  · -- the first 2 ^ 32 - 1 characters alone are too many
    have htake : (cs.take (2 ^ 32 - 1)).length = 2 ^ 32 - 1 := by
      rw [List.length_take]
      omega
    have hsent := emit_sent ⟨[], true, [], 0#32, -1#32⟩ rfl (cs.take (2 ^ 32 - 1))
      (by rw [htake, hmax]; simp)
    have hpre := (sent_prefix_emit (emit ⟨[], true, [], 0#32, -1#32⟩ (cs.take (2 ^ 32 - 1)))
      (cs.drop (2 ^ 32 - 1))).length_le
    rw [← emit_append, List.take_append_drop, hsent, List.nil_append, htake] at hpre
    unfold INT_MAX at h
    omega

theorem toInt_ofNat {k : Nat} (h : k ≤ INT_MAX) : (BitVec.ofNat 32 k).toInt = k := by
  unfold INT_MAX at h
  rw [BitVec.toInt_eq_toNat_of_lt] <;> rw [BitVec.toNat_ofNat] <;> omega

section Buffer
variable {fmt : CString} {ap : List Arg} {cs : List Byte}
  (hcs : ∀ st, printfBackend st fmt ap = some (emit st cs)) (hlen : cs.length ≤ INT_MAX)
include hcs hlen

theorem vsnprintf_zero : vsnprintf 0#32 fmt ap = some ([], (cs.length : Int)) := by
  have hstores := emit_stores ⟨[], false, [], 0#32, 0#32⟩ rfl cs
    (by unfold INT_MAX at hlen; simp; omega)
  have hcount := emit_count ⟨[], false, [], 0#32, 0#32⟩ cs
  rw [BitVec.zero_add] at hcount
  simp only [vsnprintf, hcs, Option.bind_eq_bind, Option.bind_some, if_true, hcount,
    toInt_ofNat hlen, hstores]
  rfl

/-- The first `n - 1` characters are stored, and one NUL behind them. -/
theorem vsnprintf_eq {n : SizeT} (hn : n ≠ 0#32) : vsnprintf n fmt ap =
    some (storesFrom 0 (cs.take (n.toNat - 1)) ++ [(min cs.length (n.toNat - 1), 0#8)],
      (cs.length : Int)) := by
  have hnat : (BitVec.ofNat 32 cs.length).toNat = cs.length := by
    unfold INT_MAX at hlen
    rw [BitVec.toNat_ofNat]
    omega
  have hpos : 0 < n.toNat := by
    rw [Nat.pos_iff_ne_zero]
    exact fun h0 => hn (BitVec.eq_of_toNat_eq h0)
  have hlt : 0#32 < n := BitVec.lt_def.mpr hpos
  have hpred : (n - 1#32).toNat = n.toNat - 1 := by
    have := n.isLt
    rw [BitVec.toNat_sub, BitVec.toNat_ofNat]
    omega
  have hnul : (if BitVec.ofNat 32 cs.length < n then BitVec.ofNat 32 cs.length
      else n - 1#32).toNat = min cs.length (n.toNat - 1) := by
    simp only [BitVec.lt_def, hnat]
    split_ifs <;> omega
  have hstores := emit_stores ⟨[], false, [], 0#32, n - 1#32⟩ rfl cs
    (by unfold INT_MAX at hlen; simp; omega)
  have hcount := emit_count ⟨[], false, [], 0#32, n - 1#32⟩ cs
  rw [BitVec.zero_add] at hcount
  simp only [hpred, BitVec.toNat_ofNat, Nat.zero_mod, Nat.sub_zero, List.nil_append] at hstores
  simp only [vsnprintf, hcs, Option.bind_eq_bind, Option.bind_some, hn, hlt, if_true, if_false,
    hcount, toInt_ofNat hlen, hstores, hnul]
  rfl

end Buffer

/-- The format `%s=%d`. -/
def assignFmt : CString := ⟨"%s=%d".toList.map ch, by decide⟩

def assignArgs : List Arg := [.str (some ⟨[ch 'x'], by decide⟩), .int (-42#32)]

/-- `vsnprintf` truncates and never overruns. `printf` returns and sends the full
output; if its length fits in an `int`, `vsnprintf` returns that length for every
buffer size `n`, and its stores are the first `n - 1` characters of the output at
their indices and one NUL behind them, or none if `n` is zero. -/
theorem vsnprintf_truncates (fmt : CString) (ap : List Arg) (h : Supplies fmt ap) (n : SizeT) :
    ∃ sent ret, printf fmt ap = some (sent, ret) ∧ (sent.length ≤ INT_MAX →
      ret = sent.length ∧
      ∃ stores, vsnprintf n fmt ap = some (stores, (sent.length : Int)) ∧
        (n = 0#32 → stores = []) ∧
        (n ≠ 0#32 → stores = storesFrom 0 (sent.take (n.toNat - 1)) ++
          [(min sent.length (n.toNat - 1), 0#8)]) ∧
        (∀ s ∈ stores, s.1 < n.toNat)) := by
  obtain ⟨cs, hcs⟩ := printfBackend_emits h
  refine ⟨_, _, by simp only [printf, hcs, Option.bind_eq_bind, Option.bind_some]; rfl, ?_⟩
  intro hfit
  obtain ⟨hsent, hlen⟩ := sent_eq hfit
  rw [hsent, emit_count, BitVec.zero_add, toInt_ofNat hlen]
  refine ⟨rfl, ?_⟩
  by_cases hn : n = 0#32
  · subst hn
    exact ⟨[], vsnprintf_zero hcs hlen, fun _ => rfl, fun h => absurd rfl h, by simp⟩
  · refine ⟨_, vsnprintf_eq hcs hlen hn, fun h => absurd h hn, fun _ => rfl, ?_⟩
    have hpos : 0 < n.toNat := by
      rw [Nat.pos_iff_ne_zero]
      exact fun h0 => hn (BitVec.eq_of_toNat_eq h0)
    intro s hs
    rcases List.mem_append.mp hs with hs | hs
    · have := storesFrom_lt 0 _ s hs
      rw [List.length_take] at this
      omega
    · rw [List.mem_singleton.mp hs]
      simp only
      omega

/-- `snprintf(out, 4, "%s=%d", "x", -42)` stores `x=-` and the NUL and returns 5. -/
theorem vsnprintf_truncates_assignment :
    Supplies assignFmt assignArgs ∧
      printf assignFmt assignArgs = some ("x=-42".toList.map ch, 5) ∧
      vsnprintf 4#32 assignFmt assignArgs =
        some ([(0, ch 'x'), (1, ch '='), (2, ch '-'), (3, 0#8)], 5) := by
  have hs : Supplies assignFmt assignArgs := by decide +kernel
  have hval : printf assignFmt assignArgs = some ("x=-42".toList.map ch, 5) := by decide +kernel
  obtain ⟨sent, ret, hp, hv⟩ := vsnprintf_truncates assignFmt assignArgs hs 4#32
  rw [hval] at hp
  cases hp
  obtain ⟨-, stores, hout, -, hstores, -⟩ := hv (by decide)
  rw [hout, hstores (by decide)]
  exact ⟨hs, hval, rfl⟩

end Klib
