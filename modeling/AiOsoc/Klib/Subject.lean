import AiOsoc.Klib.Strto

/-!
# Subject sequences

The texts that `strtol` is to accept, as the C standard describes them: white
space, an optional sign, an optional hexadecimal prefix and digits. The scanner
takes the longest such text, except that it keeps a prefix `0x` without a digit
and white space or a sign without a number.
-/

namespace Klib

set_option autoImplicit false

attribute [local instance] byteLawful

/-! ## The grammar -/

def White (c : Byte) : Prop := c ∈ [' ', '\t', '\n', '\x0b', '\x0c', '\r'].map ch

inductive SignText : List Byte → Bool → Prop where
  | none : SignText [] false
  | plus : SignText [ch '+'] false
  | minus : SignText [ch '-'] true

/-- The base of digits without a prefix. -/
def baseOf (base : Nat) (ds : List Byte) : Nat :=
  if base = 0 then if ds.head? = some (ch '0') then 8 else 10 else base

def digitsValue (b : Nat) (ds : List Byte) : Nat := Numeral.value b (ds.map digitNum)

/-- A number without its sign, and what it denotes. -/
inductive Number (base : Nat) : List Byte → Nat → Prop where
  | hex {x : Byte} {ds : List Byte} : base = 0 ∨ base = 16 → x = ch 'x' ∨ x = ch 'X' → ds ≠ [] →
      (∀ c ∈ ds, validDigit 16 c = true) → Number base (ch '0' :: x :: ds) (digitsValue 16 ds)
  | plain {ds : List Byte} : ds ≠ [] → (∀ c ∈ ds, validDigit (baseOf base ds) c = true) →
      Number base ds (digitsValue (baseOf base ds) ds)

/-- A subject sequence with the white space before it, and its value. -/
def Subject (base : Nat) (m : List Byte) (val : Int) : Prop :=
  ∃ ws sg neg k n, m = ws ++ (sg ++ k) ∧ (∀ c ∈ ws, White c) ∧ SignText sg neg ∧
    Number base k n ∧ val = if neg then -(n : Int) else n

/-- The longest prefix that is a subject sequence. -/
def Longest (base : Nat) (s m : List Byte) (val : Int) : Prop :=
  m <+: s ∧ Subject base m val ∧
    ∀ m' val', m' <+: s → Subject base m' val' → m'.length ≤ m.length

/-! ## The longest number -/

section Prefix
variable {α : Type} {p : α → Bool} {ds t : List α}

/-- A prefix whose elements all satisfy `p` is inside the longest one. -/
theorem length_le_takeWhile (hpre : ds <+: t) (hds : ∀ c ∈ ds, p c = true) :
    ds.length ≤ (t.takeWhile p).length := by
  obtain ⟨r, rfl⟩ := hpre
  rw [List.takeWhile_append_of_pos hds, List.length_append]
  omega

end Prefix

/-- What stands behind a hexadecimal prefix. -/
def hexRest (base : Nat) : List Byte → Option (List Byte)
  | z :: x :: rest =>
    if (base = 0 ∨ base = 16) ∧ z = ch '0' ∧ (x = ch 'x' ∨ x = ch 'X') then some rest else none
  | _ => none

def startsDigit (b : Nat) (t : List Byte) : Bool := t.head?.any (validDigit b)

theorem hexRest_some {base : Nat} {t r : List Byte} (h : hexRest base t = some r) :
    ∃ x, t = ch '0' :: x :: r ∧ (base = 0 ∨ base = 16) ∧ (x = ch 'x' ∨ x = ch 'X') := by
  match t, h with
  | z :: x :: rest, h =>
    simp only [hexRest, Option.ite_none_right_eq_some, Option.some.injEq] at h
    obtain ⟨⟨hb, rfl, hx⟩, rfl⟩ := h
    exact ⟨x, rfl, hb, hx⟩

theorem hexRest_of_prefix {base : Nat} {x : Byte} {ds t : List Byte}
    (hpre : ch '0' :: x :: ds <+: t) (hb : base = 0 ∨ base = 16) (hx : x = ch 'x' ∨ x = ch 'X') :
    ∃ r, hexRest base t = some r ∧ ds <+: r := by
  obtain ⟨r, rfl⟩ := hpre
  exact ⟨ds ++ r, by simp [hexRest, hb, hx], List.prefix_append ds r⟩

/-- The `x` of a prefix is not a digit of the bases it belongs to. -/
theorem x_not_digit {x : Byte} (hx : x = ch 'x' ∨ x = ch 'X') {b : Nat} (hb : b ≤ 16) :
    validDigit b x = false := by
  have hd : digitOf x = some 33 := by rcases hx with rfl | rfl <;> decide +kernel
  simp [validDigit, hd]
  omega

section Scan
variable {base : Nat} {t : List Byte}

theorem baseOf_initial {ds : List Byte} (hne : ds ≠ []) (hpre : ds <+: t) :
    baseOf base ds = baseOf base t := by
  obtain ⟨r, rfl⟩ := hpre
  obtain ⟨c, cs, rfl⟩ := List.exists_cons_of_ne_nil hne
  rfl

/-- Behind a prefix `0x` the digits without a prefix are the `0` alone. -/
theorem plain_length_of_hex {r ds : List Byte} (h : hexRest base t = some r) (hne : ds ≠ [])
    (hpre : ds <+: t) (hds : ∀ c ∈ ds, validDigit (baseOf base ds) c = true) :
    ds = [ch '0'] := by
  obtain ⟨x, rfl, hb, hx⟩ := hexRest_some h
  obtain ⟨c, cs, rfl⟩ := List.exists_cons_of_ne_nil hne
  obtain ⟨rfl, hcs⟩ := List.cons_prefix_cons.mp hpre
  have hbase : baseOf base (ch '0' :: cs) ≤ 16 := by
    rcases hb with rfl | rfl <;> simp [baseOf]
  cases cs with
  | nil => rfl
  | cons y ys =>
    obtain ⟨rfl, -⟩ := List.cons_prefix_cons.mp hcs
    have := hds y (by simp)
    rw [x_not_digit hx hbase] at this
    exact absurd this (by decide)

/-- The longest number at the front of a text. -/
def scanNumber (base : Nat) (t : List Byte) : Option (List Byte × Nat) :=
  match hexRest base t with
  | some r =>
    if startsDigit 16 r then
      some (t.take 2 ++ r.takeWhile (validDigit 16), digitsValue 16 (r.takeWhile (validDigit 16)))
    else some ([ch '0'], 0)
  | none =>
    if startsDigit (baseOf base t) t then
      some (t.takeWhile (validDigit (baseOf base t)),
        digitsValue (baseOf base t) (t.takeWhile (validDigit (baseOf base t))))
    else none

theorem takeWhile_ne_nil_iff {b : Nat} : t.takeWhile (validDigit b) ≠ [] ↔
    startsDigit b t = true := by
  cases t with
  | nil => simp [startsDigit]
  | cons c t =>
    by_cases h : validDigit b c = true <;> simp [startsDigit, h]

theorem takeWhile_valid {b : Nat} : ∀ c ∈ t.takeWhile (validDigit b), validDigit b c = true :=
  fun _ hc => List.mem_takeWhile_imp hc

/-- A number in front of a text that has no prefix `0x` lies within its digits. -/
theorem Number.length_of_plain (hr : hexRest base t = none) {k : List Byte} {n : Nat}
    (hpre : k <+: t) (hk : Number base k n) :
    0 < k.length ∧ k.length ≤ (t.takeWhile (validDigit (baseOf base t))).length := by
  cases hk with
  | hex hb hx hne hds =>
    obtain ⟨r, hr', -⟩ := hexRest_of_prefix hpre hb hx
    rw [hr] at hr'
    cases hr'
  | plain hne hds =>
    rw [baseOf_initial hne hpre] at hds
    exact ⟨List.length_pos_iff.mpr hne, length_le_takeWhile hpre hds⟩

/-- In front of a text with a prefix it is the `0` alone, or the prefix with digits. -/
theorem Number.length_of_hex {r : List Byte} (hr : hexRest base t = some r) {k : List Byte}
    {n : Nat} (hpre : k <+: t) (hk : Number base k n) :
    k.length = 1 ∨ 2 < k.length ∧ k.length ≤ (r.takeWhile (validDigit 16)).length + 2 := by
  cases hk with
  | hex hb hx hne hds =>
    obtain ⟨r', hr', hpre'⟩ := hexRest_of_prefix hpre hb hx
    rw [hr] at hr'
    cases hr'
    have hle := length_le_takeWhile hpre' hds
    have hpos := List.length_pos_iff.mpr hne
    simp only [List.length_cons]
    omega
  | plain hne hds =>
    rw [plain_length_of_hex hr hne hpre hds]
    exact Or.inl rfl

theorem startsDigit_of_length {b : Nat} (h : 0 < (t.takeWhile (validDigit b)).length) :
    startsDigit b t = true :=
  takeWhile_ne_nil_iff.mp (List.length_pos_iff.mp h)

theorem scanNumber_none (h : scanNumber base t = none) {k : List Byte} {n : Nat}
    (hpre : k <+: t) : ¬ Number base k n := by
  intro hk
  unfold scanNumber at h
  cases hr : hexRest base t with
  | some r =>
    rw [hr] at h
    simp only at h
    split_ifs at h
  | none =>
    rw [hr] at h
    simp only at h
    split_ifs at h with hs
    obtain ⟨hpos, hle⟩ := hk.length_of_plain hr hpre
    exact hs (startsDigit_of_length (by omega))

/-- The `0` in front of a prefix is a number. -/
theorem Number.zero (hb : base = 0 ∨ base = 16) : Number base [ch '0'] 0 := by
  have hval : digitsValue (baseOf base [ch '0']) [ch '0'] = 0 := by
    rcases hb with rfl | rfl <;> decide +kernel
  rw [← hval]
  apply Number.plain (List.cons_ne_nil _ _)
  rcases hb with rfl | rfl <;> decide +kernel

theorem scanNumber_number {k : List Byte} {n : Nat} (h : scanNumber base t = some (k, n)) :
    k <+: t ∧ Number base k n := by
  unfold scanNumber at h
  cases hr : hexRest base t with
  | some r =>
    obtain ⟨x, rfl, hb, hx⟩ := hexRest_some hr
    rw [hr] at h
    simp only at h
    split_ifs at h with hs
    · cases h
      refine ⟨?_, Number.hex hb hx (takeWhile_ne_nil_iff.mpr hs) takeWhile_valid⟩
      exact List.cons_prefix_cons.mpr ⟨rfl, List.cons_prefix_cons.mpr
        ⟨rfl, List.takeWhile_prefix _⟩⟩
    · cases h
      exact ⟨List.cons_prefix_cons.mpr ⟨rfl, List.nil_prefix⟩, Number.zero hb⟩
  | none =>
    rw [hr] at h
    simp only at h
    split_ifs at h with hs
    cases h
    have hne := takeWhile_ne_nil_iff.mpr hs
    have hbase : baseOf base (t.takeWhile (validDigit (baseOf base t))) = baseOf base t :=
      baseOf_initial hne (List.takeWhile_prefix _)
    have hnum : Number base _ (digitsValue (baseOf base _) _) :=
      Number.plain hne (by rw [hbase]; exact takeWhile_valid)
    rw [hbase] at hnum
    exact ⟨List.takeWhile_prefix _, hnum⟩

theorem scanNumber_longest {k : List Byte} {n : Nat} (h : scanNumber base t = some (k, n))
    {k' : List Byte} {n' : Nat} (hpre : k' <+: t) (hk : Number base k' n') :
    k'.length ≤ k.length := by
  unfold scanNumber at h
  cases hr : hexRest base t with
  | some r =>
    obtain ⟨x, rfl, -, -⟩ := hexRest_some hr
    have hlen := hk.length_of_hex hr hpre
    rw [hr] at h
    simp only at h
    split_ifs at h with hs
    · -- the digits behind the prefix
      cases h
      simp only [List.length_append, List.take_succ_cons, List.take_zero, List.length_cons,
        List.length_nil]
      omega
    · -- the zero of a prefix without digits
      cases h
      rcases hlen with hone | ⟨hlong, hle⟩
      · exact Nat.le_of_eq hone
      · exact absurd (startsDigit_of_length (by omega)) hs
  | none =>
    rw [hr] at h
    simp only at h
    split_ifs at h with hs
    cases h
    exact (hk.length_of_plain hr hpre).2

/-- A text denotes one number. -/
theorem Number.unique {k : List Byte} {n n' : Nat} (h : Number base k n) (h' : Number base k n') :
    n = n' := by
  have clash : ∀ {x : Byte} {ds : List Byte}, base = 0 ∨ base = 16 → x = ch 'x' ∨ x = ch 'X' →
      ¬ ∀ c ∈ ch '0' :: x :: ds, validDigit (baseOf base (ch '0' :: x :: ds)) c = true := by
    intro x ds hb hx hds
    obtain ⟨r, hr, -⟩ := hexRest_of_prefix (List.prefix_rfl (l := ch '0' :: x :: ds)) hb hx
    have := plain_length_of_hex hr (List.cons_ne_nil _ _) List.prefix_rfl hds
    cases this
  cases h with
  | hex hb hx hne hds =>
    cases h' with
    | hex => rfl
    | plain hne' hds' => exact absurd hds' (clash hb hx)
  | plain hne hds =>
    cases h' with
    | hex hb hx hne' hds' => exact absurd hds (clash hb hx)
    | plain => rfl

end Scan

/-! ## Space and sign -/

theorem isspace_iff : ∀ c : Byte, isspace c = true ↔ White c := by
  unfold White
  decide +kernel

theorem digit_plain {c : Byte} {d : Nat} (h : digitOf c = some d) :
    isspace c = false ∧ c ≠ ch '+' ∧ c ≠ ch '-' := by
  obtain ⟨hd, upper, rfl⟩ := digitOf_some h
  obtain ⟨hspace, hplus, hminus, -⟩ := digitText_plain d hd upper
  exact ⟨hspace, hplus, hminus⟩

theorem Number.head {base : Nat} {k : List Byte} {n : Nat} (h : Number base k n) :
    ∃ c cs, k = c :: cs ∧ isspace c = false ∧ c ≠ ch '+' ∧ c ≠ ch '-' := by
  cases h with
  | hex => exact ⟨_, _, rfl, by decide⟩
  | plain hne hds =>
    obtain ⟨c, cs, rfl⟩ := List.exists_cons_of_ne_nil hne
    obtain ⟨d, hd, -⟩ := validDigit_iff.mp (hds c List.mem_cons_self)
    exact ⟨c, cs, rfl, digit_plain hd⟩

/-- The sign, whether it is a minus, and what follows it. -/
def splitSign : List Byte → List Byte × Bool × List Byte
  | [] => ([], false, [])
  | c :: str =>
    if c = ch '+' then ([ch '+'], false, str)
    else if c = ch '-' then ([ch '-'], true, str)
    else ([], false, c :: str)

/-- The white space and the sign before the number. -/
def lead (s : List Byte) : List Byte := s.takeWhile isspace ++ (splitSign (s.dropWhile isspace)).1

def negative (s : List Byte) : Bool := (splitSign (s.dropWhile isspace)).2.1

/-- What stands where the number is expected. -/
def body (s : List Byte) : List Byte := (splitSign (s.dropWhile isspace)).2.2

theorem splitSign_append (str : List Byte) : (splitSign str).1 ++ (splitSign str).2.2 = str := by
  cases str with
  | nil => rfl
  | cons c str =>
    simp only [splitSign]
    split_ifs with h1 h2
    · rw [h1]
      rfl
    · rw [h2]
      rfl
    · rfl

theorem splitSign_sign (str : List Byte) : SignText (splitSign str).1 (splitSign str).2.1 := by
  cases str with
  | nil => exact .none
  | cons c str =>
    simp only [splitSign]
    split_ifs
    · exact .plus
    · exact .minus
    · exact .none

theorem lead_append_body (s : List Byte) : lead s ++ body s = s := by
  rw [lead, body, List.append_assoc, splitSign_append, List.takeWhile_append_dropWhile]

def signed (neg : Bool) (n : Nat) : Int := if neg then -(n : Int) else n

section Decompose
variable {base : Nat} {s : List Byte}

theorem subject_lead {k : List Byte} {n : Nat} (h : Number base k n) :
    Subject base (lead s ++ k) (signed (negative s) n) := by
  refine ⟨s.takeWhile isspace, _, _, k, n, List.append_assoc _ _ _, ?_,
    splitSign_sign (s.dropWhile isspace), h, rfl⟩
  intro c hc
  exact (isspace_iff c).mp (List.mem_takeWhile_imp hc)

/-- A subject sequence that is a prefix has all the white space and the sign. -/
theorem subject_prefix {m : List Byte} {val : Int} (hpre : m <+: s) (h : Subject base m val) :
    ∃ k n, m = lead s ++ k ∧ k <+: body s ∧ Number base k n ∧ val = signed (negative s) n := by
  obtain ⟨ws, sg, neg, k, n, rfl, hws, hsg, hk, rfl⟩ := h
  obtain ⟨r, rfl⟩ := hpre
  obtain ⟨c, cs, rfl, hspace, hplus, hminus⟩ := hk.head
  have hwhite : ∀ c ∈ ws, isspace c = true := fun c hc => (isspace_iff c).mpr (hws c hc)
  have hfirst : ∀ (d : Byte) (ds : List Byte), isspace d = false →
      (ws ++ d :: ds).takeWhile isspace = ws ∧ (ws ++ d :: ds).dropWhile isspace = d :: ds := by
    intro d ds hd
    rw [List.takeWhile_append_of_pos hwhite, List.dropWhile_append_of_pos hwhite]
    simp [hd]
  refine ⟨c :: cs, n, ?_⟩
  cases hsg with
  | none =>
    obtain ⟨h1, h2⟩ := hfirst c (cs ++ r) hspace
    simp only [lead, body, negative, signed, List.append_assoc, List.nil_append, List.cons_append,
      h1, h2, splitSign, hplus, hminus, if_false]
    exact ⟨by simp, List.prefix_append _ _, hk, trivial⟩
  | plus =>
    obtain ⟨h1, h2⟩ := hfirst (ch '+') (c :: cs ++ r) (by decide)
    simp only [List.cons_append] at h1 h2
    simp only [lead, body, negative, signed, List.append_assoc, List.cons_append, List.nil_append,
      h1, h2, splitSign, if_true]
    exact ⟨trivial, List.prefix_append _ _, hk, trivial⟩
  | minus =>
    obtain ⟨h1, h2⟩ := hfirst (ch '-') (c :: cs ++ r) (by decide)
    have hdash : ch '-' ≠ ch '+' := by decide
    simp only [List.cons_append] at h1 h2
    simp only [lead, body, negative, signed, List.append_assoc, List.cons_append, List.nil_append,
      h1, h2, splitSign, hdash, if_false, if_true]
    exact ⟨trivial, List.prefix_append _ _, hk, trivial⟩

/-- The longest subject sequence ends with the longest number. -/
theorem longest_iff {m : List Byte} {val : Int} : Longest base s m val ↔
    ∃ k n, scanNumber base (body s) = some (k, n) ∧ m = lead s ++ k ∧
      val = signed (negative s) n := by
  constructor
  · rintro ⟨hpre, hsub, hmax⟩
    obtain ⟨k, n, rfl, hk, hnum, rfl⟩ := subject_prefix hpre hsub
    cases hscan : scanNumber base (body s) with
    | none => exact absurd hnum (scanNumber_none hscan hk)
    | some kn =>
      obtain ⟨k', n'⟩ := kn
      obtain ⟨hk', hnum'⟩ := scanNumber_number hscan
      have hback : lead s ++ k' <+: s := by
        conv => rhs; rw [← lead_append_body s]
        exact (List.prefix_append_right_inj _).mpr hk'
      have h1 := scanNumber_longest hscan hk hnum
      have h2 := hmax _ _ hback (subject_lead hnum')
      simp only [List.length_append] at h2
      obtain rfl : k = k' := (List.prefix_of_prefix_length_le hk hk' h1).eq_of_length (by omega)
      obtain rfl := hnum.unique hnum'
      exact ⟨k, n, rfl, rfl, rfl⟩
  · rintro ⟨k, n, hscan, rfl, rfl⟩
    obtain ⟨hk, hnum⟩ := scanNumber_number hscan
    refine ⟨?_, subject_lead hnum, ?_⟩
    · conv => rhs; rw [← lead_append_body s]
      exact (List.prefix_append_right_inj _).mpr hk
    · intro m' val' hpre' hsub'
      obtain ⟨k', n', rfl, hk', hnum', -⟩ := subject_prefix hpre' hsub'
      have := scanNumber_longest hscan hk' hnum'
      simp only [List.length_append]
      omega

theorem no_subject (h : scanNumber base (body s) = none) :
    ∀ m val, m <+: s → ¬ Subject base m val := by
  intro m val hpre hsub
  obtain ⟨k, n, rfl, hk, hnum, -⟩ := subject_prefix hpre hsub
  exact scanNumber_none h hk hnum

end Decompose

/-! ## The scanner -/

section Scanner
variable {w base : Nat} {t : List Byte} (rest : List Byte)

theorem skipSpace_eq (s : List Byte) :
    skipSpace (s ++ 0#8 :: rest) = some (s.dropWhile isspace ++ 0#8 :: rest) := by
  induction s with
  | nil => exact skipSpace_stop (by decide) rest
  | cons c s ih =>
    by_cases h : isspace c = true
    · rw [List.cons_append, skipSpace, if_pos h, ih, List.dropWhile_cons_of_pos h]
    · rw [List.cons_append, skipSpace, if_neg h, List.dropWhile_cons_of_neg h]
      rfl

theorem takeSign_eq (str : List Byte) : takeSign (str ++ 0#8 :: rest) =
    some ((splitSign str).2.1, (splitSign str).2.2 ++ 0#8 :: rest) := by
  cases str with
  | nil => rfl
  | cons c str =>
    simp only [List.cons_append, takeSign, splitSign]
    split_ifs <;> rfl

/-- Stepping over a leading zero does not change what the digits denote. -/
theorem takeDigits_zero {b : Nat} (hb : 0 < b) (t : List Byte) :
    takeDigits (b : Int) 0#w (t ++ 0#8 :: rest) =
      takeDigits (b : Int) 0#w (ch '0' :: t ++ 0#8 :: rest) := by
  have hzero : digitOf (ch '0') = some 0 := by decide
  have hvalid : validDigit b (ch '0') = true := validDigit_iff.mpr ⟨0, hzero, hb⟩
  have := takeDigits_digit (w := w) hvalid 0 (t ++ 0#8 :: rest)
  rw [digitNum, hzero, Nat.zero_mul] at this
  exact this.symm

theorem takeNumber_hex {r : List Byte} (h : hexRest base t = some r) :
    takeNumber w base (t ++ 0#8 :: rest) =
      some (BitVec.ofNat w (digitsValue 16 (r.takeWhile (validDigit 16))),
        r.dropWhile (validDigit 16) ++ 0#8 :: rest) := by
  obtain ⟨x, rfl, hb, hx⟩ := hexRest_some h
  have hb' : (base : Int) = 0 ∨ (base : Int) = 16 := by omega
  rw [takeNumber, List.cons_append, List.cons_append, takePrefix_hex _ hb' hx]
  exact takeDigits_text 0 r rest

/-- A leading zero that is not part of a hexadecimal prefix. -/
theorem takeNumber_zero {t : List Byte} (hb : base = 0 ∨ base = 16)
    (h : hexRest base (ch '0' :: t) = none) :
    takeNumber w base (ch '0' :: t ++ 0#8 :: rest) =
      takeDigits (baseOf base (ch '0' :: t) : Int) 0#w (ch '0' :: t ++ 0#8 :: rest) := by
  obtain ⟨d, ds, hds, hx⟩ : ∃ d ds, t ++ 0#8 :: rest = d :: ds ∧ ¬ (d = ch 'x' ∨ d = ch 'X') := by
    cases t with
    | nil => exact ⟨0#8, rest, rfl, by decide⟩
    | cons d ds => exact ⟨d, ds ++ 0#8 :: rest, rfl, by simpa [hexRest, hb] using h⟩
  rcases hb with rfl | rfl
  · rw [show baseOf 0 (ch '0' :: t) = 8 from rfl, ← takeDigits_zero rest (by decide) t, hds,
      takeNumber, List.cons_append, hds]
    exact congrArg (Option.bind · _) (takePrefix_octal ds hx)
  · rw [show baseOf 16 (ch '0' :: t) = 16 from rfl, ← takeDigits_zero rest (by decide) t, hds,
      takeNumber, List.cons_append, hds]
    exact congrArg (Option.bind · _) (takePrefix_sixteen ds hx)

/-- Elsewhere the digits begin where the number is expected. -/
theorem takeNumber_digits (h : t.head? = some (ch '0') → base ≠ 0 ∧ base ≠ 16) :
    takeNumber w base (t ++ 0#8 :: rest) =
      takeDigits (baseOf base t : Int) 0#w (t ++ 0#8 :: rest) := by
  obtain ⟨c, ds, htext, hc⟩ : ∃ c ds, t ++ 0#8 :: rest = c :: ds ∧
      (c = ch '0' → t.head? = some (ch '0')) := by
    cases t with
    | nil => exact ⟨0#8, rest, rfl, fun h => absurd h (by decide)⟩
    | cons c t => exact ⟨c, _, rfl, fun h => by rw [h]; rfl⟩
  rw [takeNumber, htext]
  by_cases hb : base = 0
  · subst hb
    have hne : c ≠ ch '0' := fun hz => (h (hc hz)).1 rfl
    have hten : baseOf 0 t = 10 := by
      rw [baseOf, if_pos rfl, if_neg fun hz => (h hz).1 rfl]
    rw [hten]
    exact congrArg (Option.bind · _) (takePrefix_decimal ds hne)
  · have hplain : ¬ ((base : Int) = 16 ∧ c = ch '0') := by
      rintro ⟨h16, hz⟩
      exact (h (hc hz)).2 (by omega)
    rw [baseOf, if_neg hb]
    exact congrArg (Option.bind · _) (takePrefix_plain ds (by omega) hplain)

theorem takeNumber_plain (h : hexRest base t = none) :
    takeNumber w base (t ++ 0#8 :: rest) =
      some (BitVec.ofNat w (digitsValue (baseOf base t) (t.takeWhile (validDigit (baseOf base t)))),
        t.dropWhile (validDigit (baseOf base t)) ++ 0#8 :: rest) := by
  have hdigits : takeNumber w base (t ++ 0#8 :: rest) =
      takeDigits (baseOf base t : Int) 0#w (t ++ 0#8 :: rest) := by
    by_cases hz : t.head? = some (ch '0') ∧ (base = 0 ∨ base = 16)
    · obtain ⟨t', rfl⟩ : ∃ t', t = ch '0' :: t' := List.head?_eq_some_iff.mp hz.1
      exact takeNumber_zero rest hz.2 h
    · refine takeNumber_digits rest fun hhead => ?_
      have := not_and.mp hz hhead
      omega
  rw [hdigits]
  exact takeDigits_text 0 t rest

end Scanner

/-! ## When the scanner is right -/

/-- A hexadecimal prefix that no hexadecimal digit follows. -/
def BarePrefix (base : Nat) (t : List Byte) : Prop :=
  ∃ r, hexRest base t = some r ∧ startsDigit 16 r = false

/-- A digit of the base stands where the number is expected, or nothing was
stepped over to get there, and no prefix is without its digits. -/
def Scannable (base : Nat) (s : List Byte) : Prop :=
  (startsDigit (baseOf base (body s)) (body s) = true ∨ lead s = []) ∧ ¬ BarePrefix base (body s)

section Outcome
variable {w base : Nat} {t : List Byte} (rest : List Byte)

theorem drop_takeWhile (p : Byte → Bool) (t : List Byte) :
    t.drop (t.takeWhile p).length = t.dropWhile p := by
  calc t.drop (t.takeWhile p).length
      = (t.takeWhile p ++ t.dropWhile p).drop (t.takeWhile p).length := by
        rw [List.takeWhile_append_dropWhile]
    _ = t.dropWhile p := List.drop_left

/-- The number read is the longest one, unless its prefix is bare. -/
theorem takeNumber_scan {k : List Byte} {n : Nat} (hbare : ¬ BarePrefix base t)
    (h : scanNumber base t = some (k, n)) :
    takeNumber w base (t ++ 0#8 :: rest) =
      some (BitVec.ofNat w n, t.drop k.length ++ 0#8 :: rest) := by
  unfold scanNumber at h
  cases hr : hexRest base t with
  | some r =>
    rw [takeNumber_hex rest hr]
    rw [hr] at h
    simp only at h
    split_ifs at h with hs
    · cases h
      obtain ⟨x, rfl, -, -⟩ := hexRest_some hr
      rw [← drop_takeWhile]
      rfl
    · exact absurd ⟨r, hr, Bool.eq_false_of_not_eq_true hs⟩ hbare
  | none =>
    rw [takeNumber_plain rest hr]
    rw [hr] at h
    simp only at h
    split_ifs at h with hs
    cases h
    rw [drop_takeWhile]

theorem takeWhile_of_not_starts {b : Nat} (h : startsDigit b t = false) :
    t.takeWhile (validDigit b) = [] ∧ t.dropWhile (validDigit b) = t := by
  cases t with
  | nil => exact ⟨rfl, rfl⟩
  | cons c t =>
    have hc : ¬ validDigit b c = true := by simpa [startsDigit] using h
    exact ⟨List.takeWhile_cons_of_neg hc, List.dropWhile_cons_of_neg hc⟩

theorem scanNumber_eq_none_iff : scanNumber base t = none ↔
    hexRest base t = none ∧ startsDigit (baseOf base t) t = false := by
  unfold scanNumber
  cases hr : hexRest base t with
  | some r =>
    simp only
    split_ifs <;> simp
  | none =>
    simp only
    split_ifs with hs <;> simp [hs]

theorem takeNumber_none (h : scanNumber base t = none) :
    takeNumber w base (t ++ 0#8 :: rest) = some (0#w, t ++ 0#8 :: rest) := by
  obtain ⟨hr, hs⟩ := scanNumber_eq_none_iff.mp h
  obtain ⟨htake, hdrop⟩ := takeWhile_of_not_starts hs
  rw [takeNumber_plain rest hr, htake, hdrop]
  rfl

theorem takeNumber_bare (h : BarePrefix base t) :
    takeNumber w base (t ++ 0#8 :: rest) = some (0#w, t.drop 2 ++ 0#8 :: rest) ∧
      scanNumber base t = some ([ch '0'], 0) ∧ 2 ≤ t.length := by
  obtain ⟨r, hr, hs⟩ := h
  obtain ⟨htake, hdrop⟩ := takeWhile_of_not_starts hs
  obtain ⟨x, rfl, -, -⟩ := hexRest_some hr
  refine ⟨?_, ?_, by simp⟩
  · rw [takeNumber_hex rest hr, htake, hdrop]
    rfl
  · rw [scanNumber, hr]
    simp [hs]

end Outcome

/-- What is to be said of a result `*endptr` and value: the longest subject
sequence, if there is one, and its value if it is representable. -/
def AcceptsSubject (w base : Nat) (s : CString) (res : Option (BitVec w × List Byte)) : Prop :=
  ∃ r endptr, res = some (r, endptr) ∧
    (∀ m val, Longest base s.chars m val → endptr = s.bytes.drop m.length ∧
      (-2 ^ (w - 1) ≤ val ∧ val < 2 ^ (w - 1) → r.toInt = val)) ∧
    ((∀ m val, m <+: s.chars → ¬ Subject base m val) → r = 0#w ∧ endptr = s.bytes)

theorem signed_ofNat {w : Nat} (neg : Bool) (n : Nat) :
    (if neg then -BitVec.ofNat w n else BitVec.ofNat w n) = BitVec.ofInt w (signed neg n) := by
  cases neg with
  | true =>
    show -BitVec.ofNat w n = BitVec.ofInt w (-(n : Int))
    rw [BitVec.ofInt_neg, BitVec.ofInt_natCast]
  | false => exact (BitVec.ofInt_natCast w n).symm

theorem bytes_drop_lead (s : CString) {k : List Byte} (hk : k.length ≤ (body s.chars).length) :
    s.bytes.drop (lead s.chars ++ k).length = (body s.chars).drop k.length ++ [0#8] := by
  have hs : s.bytes = lead s.chars ++ (body s.chars ++ [0#8]) := by
    rw [← List.append_assoc, lead_append_body]
    rfl
  rw [hs, List.length_append, ← List.drop_drop, List.drop_left, List.drop_append_of_le_length hk]

section Strto
variable {w base : Nat} (hbase : base = 0 ∨ 2 ≤ base ∧ base ≤ 36) (s : CString)
include hbase

theorem strtoSigned_eq : strtoSigned w s.bytes base =
    (takeNumber w base (body s.chars ++ [0#8])).map fun (r, str) =>
      (if negative s.chars then -r else r, str) := by
  have hb : ¬ ((base : Int) ≠ 0 ∧ ((base : Int) < 2 ∨ (base : Int) > 36)) := by omega
  rw [strtoSigned, if_neg hb, CString.bytes, skipSpace_eq]
  simp only [Option.bind_eq_bind, Option.bind_some, takeSign_eq]
  rw [body, Option.map_eq_bind]
  rfl

theorem accepts_of_scannable (hw : 0 < w) (h : Scannable base s.chars) :
    AcceptsSubject w base s (strtoSigned w s.bytes base) := by
  obtain ⟨hstart, hbare⟩ := h
  rw [strtoSigned_eq hbase s]
  cases hscan : scanNumber base (body s.chars) with
  | none =>
    have hlead : lead s.chars = [] := by
      rw [(scanNumber_eq_none_iff.mp hscan).2] at hstart
      simpa using hstart
    have hbytes : body s.chars ++ [0#8] = s.bytes := by
      have hbody := lead_append_body s.chars
      rw [hlead, List.nil_append] at hbody
      rw [hbody]
      rfl
    refine ⟨0#w, s.bytes, ?_, ?_, fun _ => ⟨rfl, rfl⟩⟩
    · rw [takeNumber_none [] hscan, hbytes]
      simp
    · intro m val hlong
      obtain ⟨k, n, hk, -⟩ := longest_iff.mp hlong
      rw [hscan] at hk
      cases hk
  | some kn =>
    obtain ⟨k, n⟩ := kn
    obtain ⟨hk, hnum⟩ := scanNumber_number hscan
    refine ⟨BitVec.ofInt w (signed (negative s.chars) n), (body s.chars).drop k.length ++ [0#8],
      ?_, ?_, ?_⟩
    · simp only [takeNumber_scan [] hbare hscan, Option.map_some, signed_ofNat]
    · intro m val hlong
      obtain ⟨k', n', hk', rfl, rfl⟩ := longest_iff.mp hlong
      rw [hscan] at hk'
      cases hk'
      refine ⟨(bytes_drop_lead s hk.length_le).symm, ?_⟩
      rintro ⟨hlo, hhi⟩
      exact BitVec.toInt_ofInt_eq_self hw hlo hhi
    · intro hnone
      have hpre : lead s.chars ++ k <+: s.chars := by
        conv => rhs; rw [← lead_append_body s.chars]
        exact (List.prefix_append_right_inj _).mpr hk
      exact absurd (subject_lead hnum) (hnone _ _ hpre)

theorem scannable_of_accepts (h : AcceptsSubject w base s (strtoSigned w s.bytes base)) :
    Scannable base s.chars := by
  obtain ⟨r, endptr, hres, hlong, hnone⟩ := h
  rw [strtoSigned_eq hbase s] at hres
  have hbare : ¬ BarePrefix base (body s.chars) := by
    intro hbare
    obtain ⟨hnum, hscan, hlen⟩ := takeNumber_bare (w := w) [] hbare
    rw [hnum, Option.map_some] at hres
    obtain ⟨-, rfl⟩ := Prod.mk.inj (Option.some.inj hres)
    obtain ⟨hend, -⟩ := hlong _ _ (longest_iff.mpr ⟨_, _, hscan, rfl, rfl⟩)
    rw [bytes_drop_lead s (by simp; omega)] at hend
    have := congrArg List.length hend
    simp only [List.length_append, List.length_drop, List.length_singleton] at this
    omega
  refine ⟨?_, hbare⟩
  by_contra hneither
  simp only [not_or, Bool.not_eq_true] at hneither
  have hscan : scanNumber base (body s.chars) = none := by
    refine scanNumber_eq_none_iff.mpr ⟨?_, hneither.1⟩
    cases hr : hexRest base (body s.chars) with
    | none => rfl
    | some r =>
      -- the zero of a prefix is itself a digit of the base
      have hzero : startsDigit (baseOf base (body s.chars)) (body s.chars) = true := by
        obtain ⟨x, hbody, hb, -⟩ := hexRest_some hr
        rw [hbody]
        rcases hb with rfl | rfl <;> rfl
      rw [hneither.1] at hzero
      cases hzero
  rw [takeNumber_none [] hscan, Option.map_some] at hres
  obtain ⟨-, rfl⟩ := Prod.mk.inj (Option.some.inj hres)
  obtain ⟨-, hend⟩ := hnone (no_subject hscan)
  have := congrArg List.length hend
  have hsplit := congrArg List.length (lead_append_body s.chars)
  have hpos := List.length_pos_iff.mpr hneither.2
  simp only [CString.bytes, List.length_append] at this hsplit
  omega

/-- `strtol` and `strtoll` accept exactly the C subject sequence if and only if
the text is one that the scanner need not step back on. -/
theorem strtol_accepts_iff :
    (AcceptsSubject 32 base s (strtol s.bytes base) ↔ Scannable base s.chars) ∧
      (AcceptsSubject 64 base s (strtoll s.bytes base) ↔ Scannable base s.chars) :=
  ⟨⟨scannable_of_accepts hbase s, accepts_of_scannable hbase s (by decide)⟩,
    ⟨scannable_of_accepts hbase s, accepts_of_scannable hbase s (by decide)⟩⟩

end Strto

def minusHex : CString := ⟨"-0x1f,".toList.map ch, by decide⟩

/-- `strtol("-0x1f,", &endptr, 0)` is -31 and stops at the comma. -/
theorem strtol_accepts_minusHex :
    Scannable 0 minusHex.chars ∧
      strtol minusHex.bytes 0 = some (-31#32, ",".toList.map ch ++ [0#8]) ∧
      AcceptsSubject 32 0 minusHex (strtol minusHex.bytes 0) := by
  have hs : Scannable 0 minusHex.chars := by
    refine ⟨Or.inl (by decide +kernel), ?_⟩
    rintro ⟨r, hr, hstart⟩
    have hrest : hexRest 0 (body minusHex.chars) = some ("1f,".toList.map ch) := by decide +kernel
    obtain rfl := Option.some.inj (hrest.symm.trans hr)
    exact absurd hstart (by decide +kernel)
  exact ⟨hs, by decide +kernel, (strtol_accepts_iff (Or.inl rfl) minusHex).1.mpr hs⟩

def loneMinus : CString := ⟨"-".toList.map ch, by decide⟩

/-- On `"-"` both functions leave `endptr` behind the sign, though no subject
sequence is there. -/
theorem loneMinus_consumed :
    strtol loneMinus.bytes 10 = some (0#32, [0#8]) ∧
      strtoll loneMinus.bytes 10 = some (0#64, [0#8]) ∧
      ¬ AcceptsSubject 32 10 loneMinus (strtol loneMinus.bytes 10) ∧
      ¬ AcceptsSubject 64 10 loneMinus (strtoll loneMinus.bytes 10) := by
  have hs : ¬ Scannable 10 loneMinus.chars := by
    rintro ⟨hstart, -⟩
    exact absurd hstart (by decide +kernel)
  have hbase : (10 : Nat) = 0 ∨ 2 ≤ 10 ∧ 10 ≤ 36 := by decide
  exact ⟨by decide +kernel, by decide +kernel, fun h => hs (scannable_of_accepts hbase loneMinus h),
    fun h => hs (scannable_of_accepts hbase loneMinus h)⟩

end Klib
