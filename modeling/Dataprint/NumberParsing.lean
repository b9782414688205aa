import Dataprint.Simdjson
import Mathlib.Data.List.TakeWhile
import Mathlib.Data.Nat.Digits.Defs
import Mathlib.Tactic.IntervalCases

/-!
# Parsing Numbers

`parse_number` (`src/simdjson.cpp`) is what the number getter of simdjson runs on a token.  It reads
the digits of an integer modulo `2^64` and looks at what follows them only when it is done with the
range of the integer.

- `isNumberText` is the grammar of JSON numbers, `decimalText` how an integer is written in it;
- `parseNumber_ok_iff` — only numbers are accepted;
- `parseNumber_bigint_iff` — `BIGINT_ERROR` is answered to a text that starts like a big
  integer, whatever follows, and not to every integer outside the 64-bit range;
- `parseNumber_decimalText` — integers are read back.
-/

namespace Dataprint

open Foundations

/-! ## The grammar of numbers -/

def isDigit (b : UInt8) : Bool := 0x30 ≤ b && b ≤ 0x39

/-- One digit or more. -/
def isDigits (text : Bytes) : Bool := !text.isEmpty && text.all isDigit

/-- Nothing, or `e` with a sign or without one, and digits. -/
def isExponent : Bytes → Bool
  | [] => true
  | e :: rest =>
    (e == 0x65 || e == 0x45) &&
      match rest with
      | [] => false
      | s :: digits => if s == 0x2b || s == 0x2d then isDigits digits else isDigits rest

/-- Nothing, or a point and digits; then an exponent. -/
def isFraction : Bytes → Bool
  | [] => true
  | b :: rest =>
    if b == 0x2e then
      isDigits (rest.takeWhile isDigit) && isExponent (rest.dropWhile isDigit)
    else isExponent (b :: rest)

/-- Digits without a leading zero. -/
def isNatural : Bytes → Bool
  | [] => false
  | [d] => isDigit d
  | d :: rest => d != 0x30 && isDigits (d :: rest)

def isNumberText (text : Bytes) : Bool :=
  let digits := if text.head? = some 0x2d then text.tail else text
  isNatural (digits.takeWhile isDigit) && isFraction (digits.dropWhile isDigit)

/-! ## The values of digits -/

/-- The value of a digit. -/
def digitValue (c : UInt8) : ℕ := c.toNat - 0x30

/-- The value of some digits behind those that have the value `n`. -/
def readDecimal (n : ℕ) (digits : Bytes) : ℕ := digits.foldl (fun n c => 10 * n + digitValue c) n

theorem isDigit_iff {c : UInt8} : isDigit c = true ↔ 0x30 ≤ c.toNat ∧ c.toNat ≤ 0x39 := by
  simp [isDigit, UInt8.le_iff_toNat_le]

theorem digitValue_lt {c : UInt8} (h : isDigit c = true) : digitValue c < 10 := by
  have hc := isDigit_iff.mp h
  unfold digitValue
  omega

theorem readDecimal_eq (n : ℕ) (digits : Bytes) :
    readDecimal n digits = n * 10 ^ digits.length + readDecimal 0 digits := by
  induction digits generalizing n with
  | nil => simp [readDecimal]
  | cons c digits ih =>
    have hstep : ∀ n, readDecimal n (c :: digits) = readDecimal (10 * n + digitValue c) digits :=
      fun _ => rfl
    rw [hstep, hstep, ih (10 * n + _), ih (10 * 0 + _), List.length_cons, Nat.pow_succ]
    ring

theorem readDecimal_cons (c : UInt8) (digits : Bytes) :
    readDecimal 0 (c :: digits) = digitValue c * 10 ^ digits.length + readDecimal 0 digits := by
  show readDecimal (10 * 0 + digitValue c) digits = _
  rw [readDecimal_eq, Nat.mul_zero, Nat.zero_add]

theorem readDecimal_lt {digits : Bytes} (h : digits.all isDigit = true) :
    readDecimal 0 digits < 10 ^ digits.length := by
  induction digits with
  | nil => decide
  | cons c digits ih =>
    rw [List.all_cons, Bool.and_eq_true] at h
    have hc := digitValue_lt h.1
    have hrest := ih h.2
    calc readDecimal 0 (c :: digits)
        = digitValue c * 10 ^ digits.length + readDecimal 0 digits := readDecimal_cons c digits
      _ < digitValue c * 10 ^ digits.length + 10 ^ digits.length := by omega
      _ = (digitValue c + 1) * 10 ^ digits.length := by ring
      _ ≤ 10 * 10 ^ digits.length := Nat.mul_le_mul_right _ hc
      _ = 10 ^ (c :: digits).length := by rw [List.length_cons, Nat.pow_succ, Nat.mul_comm]

/-- What a numeral without a leading zero looks like. -/
theorem isNatural_iff {digits : Bytes} (h : digits.all isDigit = true) :
    isNatural digits = true ↔
      ¬ (digits.length = 0 ∨ digits.head? = some 0x30 ∧ 1 < digits.length) := by
  match digits, h with
  | [], _ => decide
  | [d], h => simpa [isNatural] using h
  | d :: d' :: digits, h => simp [isNatural, isDigits, h]

theorem all_of_isNatural {digits : Bytes} (h : isNatural digits = true) :
    digits.all isDigit = true := by
  match digits, h with
  | [d], h => simpa [isNatural] using h
  | d :: d' :: digits, h =>
    simp only [isNatural, isDigits, Bool.and_eq_true] at h
    exact h.2.2

/-- **A numeral has as many digits as its value needs.** -/
theorem lt_length_iff {digits : Bytes} (h : isNatural digits = true) {k : ℕ} (hk : 0 < k) :
    k < digits.length ↔ 10 ^ k ≤ readDecimal 0 digits := by
  have hall := all_of_isNatural h
  constructor
  · intro hlt
    match digits, h, hall, hlt with
    | d :: d' :: digits, h, hall, hlt =>
      -- the first digit is not zero
      simp only [isNatural, Bool.and_eq_true, bne_iff_ne, ne_eq] at h
      rw [List.all_cons, Bool.and_eq_true] at hall
      have hd : 1 ≤ digitValue d := by
        have hdigit := isDigit_iff.mp hall.1
        have hne : d.toNat ≠ 0x30 := fun heq => h.1 (UInt8.toNat_inj.mp heq)
        unfold digitValue
        omega
      rw [readDecimal_cons]
      calc 10 ^ k ≤ 10 ^ (d' :: digits).length :=
            Nat.pow_le_pow_right (by decide) (Nat.lt_succ_iff.mp hlt)
        _ ≤ digitValue d * 10 ^ (d' :: digits).length := Nat.le_mul_of_pos_left _ hd
        _ ≤ _ := Nat.le_add_right _ _
    | [d], _, _, hlt => exact absurd hlt (by simp; omega)
  · intro hle
    by_contra hge
    have hlt := readDecimal_lt hall
    have hpow : 10 ^ digits.length ≤ 10 ^ k := Nat.pow_le_pow_right (by decide) (not_lt.mp hge)
    omega

/-! ## Decimal notation -/

/-- The decimal digits of a number, in ASCII. -/
def decimalDigits (m : ℕ) : Bytes :=
  if m = 0 then [0x30] else (Nat.digits 10 m).reverse.map fun d => UInt8.ofNat (0x30 + d)

/-- An integer as JSON writes it. -/
def decimalText (z : ℤ) : Bytes :=
  if z < 0 then 0x2d :: decimalDigits z.natAbs else decimalDigits z.natAbs

theorem typeOfByte_digit {d : ℕ} (hd : d < 10) :
    typeOfByte (UInt8.ofNat (0x30 + d)) = .number := by
  interval_cases d <;> decide

theorem typeOfText_decimalDigits (m : ℕ) : typeOfText (decimalDigits m) = .number := by
  unfold decimalDigits
  split
  case isTrue => decide
  case isFalse h =>
    have hne : (Nat.digits 10 m).reverse ≠ [] := by
      rw [ne_eq, List.reverse_eq_nil_iff]
      exact Nat.digits_ne_nil_iff_ne_zero.mpr h
    obtain ⟨d, ds, hds⟩ := List.exists_cons_of_ne_nil hne
    have hmem : d ∈ Nat.digits 10 m := by
      rw [← List.mem_reverse, hds]
      exact List.mem_cons_self
    rw [hds]
    exact typeOfByte_digit (Nat.digits_lt_base (by decide) hmem)

theorem typeOfText_decimalText (z : ℤ) : typeOfText (decimalText z) = .number := by
  unfold decimalText
  split
  case isTrue => rfl
  case isFalse => exact typeOfText_decimalDigits _

/-- The token of an integer. -/
def integerToken (z : ℤ) : Token where
  text := decimalText z
  notContainer := by
    rw [typeOfText_decimalText]
    decide

theorem integerToken_type (z : ℤ) : (integerToken z).type = .number := typeOfText_decimalText z

/-- The digits of a number behind those of its tenth. -/
theorem decimalDigits_eq {m : ℕ} (h : 10 ≤ m) :
    decimalDigits m = decimalDigits (m / 10) ++ [UInt8.ofNat (0x30 + m % 10)] := by
  have hdiv : m / 10 ≠ 0 := by omega
  rw [decimalDigits, if_neg (by omega), decimalDigits, if_neg hdiv,
    Nat.digits_def' (by decide) (by omega), List.reverse_cons, List.map_append]
  rfl

theorem decimalDigits_of_lt {m : ℕ} (h : m < 10) : decimalDigits m = [UInt8.ofNat (0x30 + m)] := by
  interval_cases m <;> simp [decimalDigits]

theorem digit_ofNat {d : ℕ} (h : d < 10) :
    isDigit (UInt8.ofNat (0x30 + d)) = true ∧ digitValue (UInt8.ofNat (0x30 + d)) = d := by
  interval_cases d <;> decide

theorem readDecimal_append (digits : Bytes) (c : UInt8) :
    readDecimal 0 (digits ++ [c]) = 10 * readDecimal 0 digits + digitValue c := List.foldl_append

/-- One more digit behind those of a number that is not zero. -/
theorem isNatural_append {digits : Bytes} (h : isNatural digits = true)
    (hpos : 0 < readDecimal 0 digits) {c : UInt8} (hc : isDigit c = true) :
    isNatural (digits ++ [c]) = true := by
  have hall := all_of_isNatural h
  have hne : digits ≠ [] := by
    rintro rfl
    cases h
  have hboth : (digits ++ [c]).all isDigit = true := by
    rw [List.all_append, hall, List.all_cons, hc]
    rfl
  rw [isNatural_iff hboth, List.head?_append_of_ne_nil _ hne]
  have hhead : digits.head? ≠ some 0x30 := by
    intro hzero
    have hguard := (isNatural_iff hall).mp h
    match digits, hzero, hguard, hpos with
    | [d], hzero, _, hpos =>
      cases hzero
      exact absurd hpos (by decide)
    | d :: d' :: ds, hzero, hguard, _ => exact hguard (.inr ⟨hzero, by simp⟩)
  simp [hhead]

/-- **The digits of a number are a numeral of it.** -/
theorem decimalDigits_spec (m : ℕ) :
    isNatural (decimalDigits m) = true ∧ readDecimal 0 (decimalDigits m) = m := by
  induction m using Nat.strongRecOn with
  | ind m ih =>
    rcases Nat.lt_or_ge m 10 with hlt | hge
    · obtain ⟨hdigit, hvalue⟩ := digit_ofNat hlt
      rw [decimalDigits_of_lt hlt]
      exact ⟨hdigit, by simpa [readDecimal] using hvalue⟩
    · obtain ⟨hnatural, hvalue⟩ := ih (m / 10) (by omega)
      obtain ⟨hdigit, hlast⟩ := digit_ofNat (Nat.mod_lt m (by decide : 0 < 10))
      rw [decimalDigits_eq hge]
      constructor
      · -- the first digit is that of the tenth, which is not zero
        exact isNatural_append hnatural (by omega) hdigit
      · rw [readDecimal_append, hvalue, hlast, Nat.div_add_mod]

/-! ## Parsing -/

/-- `is_not_structural_or_whitespace` -/
def isNotStructuralOrWhitespace (c : UInt8) : Bool :=
  !([0x09, 0x0a, 0x0d, 0x20, 0x2c, 0x3a, 0x5b, 0x5d, 0x7b, 0x7d].contains c)

/-- What is read behind a number does not end its token.  Behind the text of a token there is a
structural byte or white space. -/
def dirtyEnd : Bytes → Bool
  | [] => false
  | c :: _ => isNotStructuralOrWhitespace c

/-- `parse_digit` as long as it finds a digit: the value modulo `2^64`, and what follows. -/
def parseDigits (i : U64) : Bytes → U64 × Bytes
  | [] => (i, [])
  | c :: rest =>
    if isDigit c then parseDigits (10 * i + (c - 0x30).toBitVec.setWidth 64) rest
    else (i, c :: rest)

/-- `parse_decimal_after_separator`: what follows the digits. -/
def parseDecimalAfterSeparator (p : Bytes) : Except ErrorCode Bytes :=
  let rest := (parseDigits 0 p).2
  if p.length - rest.length = 0 then .error .numberError else .ok rest

/-- `parse_exponent`: what follows the digits. -/
def parseExponent (p : Bytes) : Except ErrorCode Bytes :=
  let startExp := if p.head? = some 0x2d ∨ p.head? = some 0x2b then p.tail else p
  let rest := (parseDigits 0 startExp).2
  if startExp.length - rest.length = 0 then .error .numberError else .ok rest

/-- The exponent of `parse_number`, if there is one. -/
def parseExponentPart (isFloat : Bool) (p : Bytes) : Except ErrorCode (Bool × Bytes) :=
  if p.head? = some 0x65 ∨ p.head? = some 0x45 then (parseExponent p.tail).map (true, ·)
  else .ok (isFloat, p)

/-- The point and the exponent of `parse_number`: whether the number is a float, and what
follows. -/
def parseFraction (p : Bytes) : Except ErrorCode (Bool × Bytes) :=
  if p.head? = some 0x2e then (parseDecimalAfterSeparator p.tail).bind (parseExponentPart true)
  else parseExponentPart false p

/-- `INT64_MAX` -/
def INT64_MAX : U64 := 0x7fffffffffffffff

/-- The end of `parse_number` for an integer: the digits have the value `i` modulo `2^64`. -/
def parseInteger (src : Bytes) (negative : Bool) (i : U64) (digitCount : ℕ) (p : Bytes) :
    Except ErrorCode Number :=
  let longestDigitCount := if negative then 19 else 20
  if digitCount > longestDigitCount then .error .bigintError
  else if digitCount = longestDigitCount ∧ negative then
    -- the end is not looked at before the range
    if i > INT64_MAX + 1 then .error .bigintError
    else if dirtyEnd p then .error .numberError
    else .ok ⟨~~~i + 1, .signedInteger⟩
  -- 20 digits that do not fit are an error of another kind
  else if digitCount = longestDigitCount ∧ (src.head? ≠ some 0x31 ∨ i ≤ INT64_MAX) then
    .error .numberError
  else if dirtyEnd p then .error .numberError
  else if i > INT64_MAX then .ok ⟨i, .unsignedInteger⟩
  else .ok ⟨if negative then ~~~i + 1 else i, .signedInteger⟩

/-- `parse_number`.  What `write_float` makes of a text, if it does not refuse it with
`NUMBER_ERROR`, is left open. -/
def parseNumber (writeFloat : Bytes → Option Binary64) (src : Bytes) : Except ErrorCode Number :=
  let negative := src.head? == some 0x2d
  let startDigits := if negative then src.tail else src
  let (i, p) := parseDigits 0 startDigits
  let digitCount := startDigits.length - p.length
  if digitCount = 0 ∨ startDigits.head? = some 0x30 ∧ 1 < digitCount then .error .numberError
  else
    match parseFraction p with
    | .error e => .error e
    | .ok (true, p) =>
      match writeFloat src with
      | none => .error .numberError
      | some d => if dirtyEnd p then .error .numberError else .ok ⟨d.bits, .floatingPointNumber⟩
    | .ok (false, p) => parseInteger src negative i digitCount p

/-- The digits are read, modulo `2^64`. -/
theorem parseDigits_eq (n : ℕ) (text : Bytes) :
    parseDigits (BitVec.ofNat 64 n) text =
      (BitVec.ofNat 64 (readDecimal n (text.takeWhile isDigit)), text.dropWhile isDigit) := by
  -- on the text, with the value of the digits so far
  induction text generalizing n with
  | nil => rfl
  | cons c text ih =>
    rw [parseDigits]
    cases hc : isDigit c with
    | false => simp [hc, readDecimal]
    | true =>
      have hvalue : (c - 0x30).toBitVec.setWidth 64 = BitVec.ofNat 64 (digitValue c) := by
        apply BitVec.eq_of_toNat_eq
        have hdigit := isDigit_iff.mp hc
        have hsub : (c - 0x30).toNat = c.toNat - 0x30 :=
          UInt8.toNat_sub_of_le _ _ (UInt8.le_iff_toNat_le.mpr hdigit.1)
        rw [BitVec.toNat_setWidth, BitVec.toNat_ofNat]
        exact congrArg (· % 2 ^ 64) hsub
      have hten : (10 : U64) = BitVec.ofNat 64 10 := rfl
      rw [if_pos rfl, hvalue, hten, BitVec.ofNat_mul_ofNat, ← BitVec.ofNat_add, ih]
      simp [hc, readDecimal]

theorem parseDigits_zero (text : Bytes) :
    parseDigits 0 text =
      (BitVec.ofNat 64 (readDecimal 0 (text.takeWhile isDigit)), text.dropWhile isDigit) :=
  parseDigits_eq 0 text

theorem length_sub_dropWhile (text : Bytes) :
    text.length - (text.dropWhile isDigit).length = (text.takeWhile isDigit).length := by
  have hsplit := congrArg List.length (List.takeWhile_append_dropWhile (p := isDigit) (l := text))
  rw [List.length_append] at hsplit
  omega

theorem all_takeWhile (text : Bytes) : (text.takeWhile isDigit).all isDigit = true :=
  List.all_takeWhile

theorem isDigits_takeWhile_iff {text : Bytes} :
    isDigits (text.takeWhile isDigit) = true ↔ (text.takeWhile isDigit).length ≠ 0 := by
  simp [isDigits]

/-! ## The parts of a number -/

theorem parseDecimalAfterSeparator_eq (p : Bytes) :
    parseDecimalAfterSeparator p =
      if isDigits (p.takeWhile isDigit) then .ok (p.dropWhile isDigit)
      else .error .numberError := by
  simp only [parseDecimalAfterSeparator, parseDigits_zero, length_sub_dropWhile]
  by_cases hnone : (p.takeWhile isDigit).length = 0
  · rw [if_pos hnone, if_neg fun h => isDigits_takeWhile_iff.mp h hnone]
  · rw [if_neg hnone, if_pos (isDigits_takeWhile_iff.mpr hnone)]

/-- The digits of an exponent, behind its sign. -/
def exponentDigits (p : Bytes) : Bytes :=
  if p.head? = some 0x2d ∨ p.head? = some 0x2b then p.tail else p

theorem parseExponent_eq (p : Bytes) :
    parseExponent p =
      if isDigits ((exponentDigits p).takeWhile isDigit) then
        .ok ((exponentDigits p).dropWhile isDigit)
      else .error .numberError :=
  parseDecimalAfterSeparator_eq (exponentDigits p)

theorem isExponent_cons (e : UInt8) (p : Bytes) :
    isExponent (e :: p) = ((e == 0x65 || e == 0x45) && isDigits (exponentDigits p)) := by
  match p with
  | [] => rfl
  | s :: digits =>
    simp only [isExponent, exponentDigits, List.head?_cons, List.tail_cons, Option.some.injEq]
    -- the grammar names the signs in the other order
    have hsign : (s == 0x2b || s == 0x2d) = true ↔ s = 0x2d ∨ s = 0x2b := by simp [or_comm]
    simp only [hsign]
    by_cases h : s = 0x2d ∨ s = 0x2b
    · simp only [if_pos h]
    · simp only [if_neg h]

/-- An exponent that ends the text is one of the grammar. -/
theorem isExponent_of_parseExponent {e : UInt8} (he : e = 0x65 ∨ e = 0x45) {p : Bytes}
    (h : parseExponent p = .ok []) : isExponent (e :: p) = true := by
  have he' : (e == 0x65 || e == 0x45) = true := by simpa using he
  rw [parseExponent_eq] at h
  split at h
  case isTrue hdigits =>
    have hend := List.dropWhile_eq_nil_iff.mp (Except.ok.inj h)
    rw [List.takeWhile_eq_self_iff.mpr hend] at hdigits
    rw [isExponent_cons, he', hdigits]
    rfl
  case isFalse => cases h

/-- What has neither a point nor an exponent is an integer. -/
def EndsInteger (p : Bytes) : Prop :=
  p.head? ≠ some 0x2e ∧ p.head? ≠ some 0x65 ∧ p.head? ≠ some 0x45

instance (p : Bytes) : Decidable (EndsInteger p) := inferInstanceAs (Decidable (_ ∧ _))

theorem parseExponentPart_of_not {p : Bytes} (h : ¬ (p.head? = some 0x65 ∨ p.head? = some 0x45))
    (isFloat : Bool) : parseExponentPart isFloat p = .ok (isFloat, p) := if_neg h

theorem parseFraction_of_endsInteger {p : Bytes} (h : EndsInteger p) :
    parseFraction p = .ok (false, p) := by
  rw [parseFraction, if_neg h.1]
  exact parseExponentPart_of_not (not_or.mpr h.2) false

/-- Parts that are missing a digit are `NUMBER_ERROR`. -/
theorem parseExponentPart_error {isFloat : Bool} {p : Bytes} {e : ErrorCode}
    (h : parseExponentPart isFloat p = .error e) : e = .numberError := by
  unfold parseExponentPart at h
  split at h
  case isTrue =>
    rw [parseExponent_eq] at h
    split at h <;> cases h
    rfl
  case isFalse => cases h

theorem parseFraction_error {p : Bytes} {e : ErrorCode} (h : parseFraction p = .error e) :
    e = .numberError := by
  unfold parseFraction at h
  split at h
  case isTrue =>
    rw [parseDecimalAfterSeparator_eq] at h
    split at h
    case isTrue => exact parseExponentPart_error h
    case isFalse =>
      cases h
      rfl
  case isFalse => exact parseExponentPart_error h

/-- A number with an exponent, or with a point before, is a float. -/
theorem parseExponentPart_ok {isFloat b : Bool} {p p' : Bytes}
    (h : parseExponentPart isFloat p = .ok (b, p')) :
    b = true ∨ b = isFloat ∧ ¬ (p.head? = some 0x65 ∨ p.head? = some 0x45) ∧ p' = p := by
  unfold parseExponentPart at h
  split at h
  case isTrue =>
    cases hexponent : parseExponent p.tail with
    | error e =>
      rw [hexponent] at h
      cases h
    | ok rest =>
      rw [hexponent] at h
      cases h
      exact .inl rfl
  case isFalse hno =>
    cases h
    exact .inr ⟨rfl, hno, rfl⟩

/-- What is parsed as an integer has no more parts. -/
theorem endsInteger_of_parseFraction {p p' : Bytes} (h : parseFraction p = .ok (false, p')) :
    EndsInteger p ∧ p' = p := by
  unfold parseFraction at h
  split at h
  case isTrue =>
    cases hpoint : parseDecimalAfterSeparator p.tail with
    | error e =>
      rw [hpoint] at h
      cases h
    | ok rest =>
      rw [hpoint] at h
      obtain hfloat | ⟨hfloat, -⟩ := parseExponentPart_ok h <;> cases hfloat
  case isFalse hno =>
    obtain hfloat | ⟨-, hexponent, hsame⟩ := parseExponentPart_ok h
    · cases hfloat
    · exact ⟨⟨hno, not_or.mp hexponent⟩, hsame⟩

/-- **Parts that end the text are those of the grammar.** -/
theorem isExponent_of_parseExponentPart {isFloat b : Bool} {p : Bytes}
    (h : parseExponentPart isFloat p = .ok (b, [])) : isExponent p = true := by
  unfold parseExponentPart at h
  split at h
  case isTrue he =>
    cases hexponent : parseExponent p.tail with
    | error e =>
      rw [hexponent] at h
      cases h
    | ok rest =>
      rw [hexponent] at h
      cases h
      match p, he with
      | e :: rest, he => exact isExponent_of_parseExponent (by simpa using he) hexponent
  case isFalse =>
    cases h
    rfl

theorem isFraction_of_parseFraction {b : Bool} {p : Bytes} (h : parseFraction p = .ok (b, [])) :
    isFraction p = true := by
  unfold parseFraction at h
  split at h
  case isTrue hpoint =>
    match p, hpoint with
    | c :: rest, hpoint =>
      cases hpoint
      rw [List.tail_cons, parseDecimalAfterSeparator_eq] at h
      split at h
      case isTrue hdigits =>
        have hexponent : isExponent (rest.dropWhile isDigit) = true :=
          isExponent_of_parseExponentPart h
        simp only [isFraction, beq_self_eq_true, if_true, hdigits, hexponent, Bool.and_self]
      case isFalse => cases h
  case isFalse hpoint =>
    have hexponent := isExponent_of_parseExponentPart h
    match p, hpoint with
    | [], _ => rfl
    | c :: rest, hpoint =>
      have hc : (c == 0x2e) = false := by simpa using hpoint
      simpa [isFraction, hc] using hexponent

/-! ## Integers -/

/-- What an integer with the digits of `m` is parsed as. -/
def integerResult (negative : Bool) (m : ℕ) (p : Bytes) : Except ErrorCode Number :=
  if negative then
    if 2 ^ 63 < m then .error .bigintError
    else if dirtyEnd p then .error .numberError
    else .ok ⟨BitVec.ofInt 64 (-m), .signedInteger⟩
  else if 10 ^ 20 ≤ m then .error .bigintError
  else if 2 ^ 64 ≤ m ∨ dirtyEnd p then .error .numberError
  else .ok ⟨BitVec.ofNat 64 m, if 2 ^ 63 ≤ m then .unsignedInteger else .signedInteger⟩

theorem negate_ofNat (m : ℕ) : ~~~(BitVec.ofNat 64 m) + 1 = BitVec.ofInt 64 (-m) := by
  show ~~~(BitVec.ofNat 64 m) + 1#64 = _
  rw [← BitVec.neg_eq_not_add, BitVec.ofInt_neg, BitVec.ofInt_natCast]

theorem lt_ofNat_iff {m : ℕ} (h : m < 2 ^ 64) {n : ℕ} (hn : n < 2 ^ 64) :
    BitVec.ofNat 64 n < BitVec.ofNat 64 m ↔ n < m := by
  rw [BitVec.lt_def, BitVec.toNat_ofNat, BitVec.toNat_ofNat, Nat.mod_eq_of_lt h,
    Nat.mod_eq_of_lt hn]

theorem int64Max_lt_iff {m : ℕ} (h : m < 2 ^ 64) : INT64_MAX < BitVec.ofNat 64 m ↔ 2 ^ 63 ≤ m :=
  lt_ofNat_iff h (by decide : 2 ^ 63 - 1 < 2 ^ 64)

/-- The twentieth digit: a number that starts with `1` and is too big has a small value modulo
`2^64`, and all that start with another digit are too big. -/
theorem overflows_iff {d : UInt8} {digits : Bytes} (hnatural : isNatural (d :: digits) = true)
    (hlength : digits.length = 19) :
    (d ≠ 0x31 ∨ BitVec.ofNat 64 (readDecimal 0 (d :: digits)) ≤ INT64_MAX) ↔
      2 ^ 64 ≤ readDecimal 0 (d :: digits) := by
  have hall := all_of_isNatural hnatural
  have hlow := (lt_length_iff hnatural (by decide : 0 < 19)).mp (by simp [hlength])
  rw [List.all_cons, Bool.and_eq_true] at hall
  have hrest := readDecimal_lt hall.2
  have hsplit := readDecimal_cons d digits
  have hdigit := isDigit_iff.mp hall.1
  rw [hlength] at hrest hsplit
  unfold digitValue at hsplit
  generalize readDecimal 0 (d :: digits) = m at *
  -- a number of 20 digits that fits starts with `1` and is above `INT64_MAX`
  rcases Nat.lt_or_ge m (2 ^ 64) with hlt | hge
  · have hone : d = 0x31 := by
      apply UInt8.toNat_inj.mp
      show d.toNat = 0x31
      by_contra hne
      have htwo : 2 * 10 ^ 19 ≤ (d.toNat - 0x30) * 10 ^ 19 := by
        apply Nat.mul_le_mul_right
        by_contra hlt
        have hzero : d.toNat - 0x30 = 0 := by omega
        rw [hzero, Nat.zero_mul] at hsplit
        omega
      omega
    refine iff_of_false ?_ (by omega)
    rintro (hne | hle)
    · exact hne hone
    · exact BitVec.not_le.mpr ((int64Max_lt_iff hlt).mpr (by omega)) hle
  · refine iff_of_true ?_ hge
    by_cases hone : d = 0x31
    · right
      subst hone
      have hvalue : m = 10 ^ 19 + readDecimal 0 digits := by simpa using hsplit
      rw [BitVec.le_def, BitVec.toNat_ofNat]
      show m % 2 ^ 64 ≤ 2 ^ 63 - 1
      omega
    · exact .inl hone

/-- Below zero 19 digits may be too many, and more are. -/
theorem parseInteger_negative {natural : Bytes} (h : isNatural natural = true) (src p : Bytes) :
    parseInteger src true (BitVec.ofNat 64 (readDecimal 0 natural)) natural.length p =
      integerResult true (readDecimal 0 natural) p := by
  have h18 := @lt_length_iff _ h 18 (by decide)
  have h19 := @lt_length_iff _ h 19 (by decide)
  unfold parseInteger integerResult
  generalize readDecimal 0 natural = m at *
  simp only [if_true, and_true, negate_ofNat]
  rcases lt_trichotomy natural.length 19 with hlt | heq | hgt
  · -- at most 18 digits
    have hsmall : ¬ 2 ^ 63 < m := by omega
    have hlong : ¬ natural.length > 19 := by omega
    have hmax : ¬ BitVec.ofNat 64 m > INT64_MAX := by
      rw [gt_iff_lt, int64Max_lt_iff (by omega)]
      omega
    simp only [hlong, hlt.ne, hsmall, hmax, false_and, if_false]
  · have hrange : BitVec.ofNat 64 m > INT64_MAX + 1 ↔ 2 ^ 63 < m :=
      lt_ofNat_iff (by omega) (by decide : 2 ^ 63 < 2 ^ 64)
    simp only [heq, Nat.lt_irrefl, if_false, if_true, ← gt_iff_lt, hrange]
  · have hbig : 2 ^ 63 < m := by omega
    rw [if_pos hgt, if_pos hbig]

/-- From zero on 20 digits may be too many, which their first and their value modulo `2^64` say. -/
theorem parseInteger_nonneg {natural : Bytes} (h : isNatural natural = true) {src : Bytes}
    (hsrc : src.head? = natural.head?) (p : Bytes) :
    parseInteger src false (BitVec.ofNat 64 (readDecimal 0 natural)) natural.length p =
      integerResult false (readDecimal 0 natural) p := by
  have h19 := @lt_length_iff _ h 19 (by decide)
  have h20 := @lt_length_iff _ h 20 (by decide)
  unfold parseInteger integerResult
  simp only [Bool.false_eq_true, and_false, if_false]
  rcases lt_trichotomy natural.length 20 with hlt | heq | hgt
  · generalize readDecimal 0 natural = m at *
    have hlong : ¬ natural.length > 20 := by omega
    have hsmall : ¬ 10 ^ 20 ≤ m := by omega
    have hfits : ¬ 2 ^ 64 ≤ m := by omega
    have hmax : BitVec.ofNat 64 m > INT64_MAX ↔ 2 ^ 63 ≤ m := int64Max_lt_iff (by omega)
    simp only [hlong, hlt.ne, hsmall, hfits, hmax, false_and, false_or, if_false]
    split_ifs <;> rfl
  · match natural, h, heq, hsrc with
    | d :: digits, h, heq, hsrc =>
      have hover := overflows_iff h (by simpa using heq)
      have hhead : src.head? ≠ some 0x31 ↔ d ≠ 0x31 := by
        rw [hsrc, List.head?_cons, ne_eq, Option.some.injEq]
      rw [← hhead] at hover
      generalize readDecimal 0 (d :: digits) = m at *
      have hsmall : ¬ 10 ^ 20 ≤ m := by omega
      simp only [heq, gt_iff_lt, Nat.lt_irrefl, hsmall, hover, true_and, if_false]
      by_cases hfits : 2 ^ 64 ≤ m
      · simp only [hfits, true_or, if_true]
      · have hmax : BitVec.ofNat 64 m > INT64_MAX := (int64Max_lt_iff (by omega)).mpr (by omega)
        have hunsigned : 2 ^ 63 ≤ m := by omega
        simp only [hfits, gt_iff_lt.mp hmax, hunsigned, false_or, if_false, if_true]
  · have hbig := h20.mp hgt
    rw [if_pos hgt, if_pos hbig]

/-- **The end of `parse_number` by the value of the digits.** -/
theorem parseInteger_eq {natural : Bytes} (h : isNatural natural = true) (negative : Bool)
    {src : Bytes} (hsrc : negative = false → src.head? = natural.head?) (p : Bytes) :
    parseInteger src negative (BitVec.ofNat 64 (readDecimal 0 natural)) natural.length p =
      integerResult negative (readDecimal 0 natural) p := by
  cases negative with
  | true => exact parseInteger_negative h src p
  | false => exact parseInteger_nonneg h (hsrc rfl) p

/-! ## Texts -/

/-- A text without its minus sign. -/
def unsignedText (text : Bytes) : Bytes := if text.head? = some 0x2d then text.tail else text

def isNegative (text : Bytes) : Bool := text.head? == some 0x2d

/-- The digits of a text, and what follows them. -/
def naturalPart (text : Bytes) : Bytes := (unsignedText text).takeWhile isDigit

def fractionPart (text : Bytes) : Bytes := (unsignedText text).dropWhile isDigit

theorem isNumberText_eq (text : Bytes) :
    isNumberText text = (isNatural (naturalPart text) && isFraction (fractionPart text)) := rfl

theorem head?_takeWhile_iff {text : Bytes} {d : UInt8} (hd : isDigit d = true) :
    (text.takeWhile isDigit).head? = some d ↔ text.head? = some d := by
  match text with
  | [] => rfl
  | c :: text =>
    cases hc : isDigit c with
    | true => simp [hc]
    | false =>
      have hne : c ≠ d := by
        rintro rfl
        rw [hc] at hd
        cases hd
      simp [hc, hne]

/-- **`parse_number` part by part.** -/
theorem parseNumber_eq (writeFloat : Bytes → Option Binary64) (text : Bytes) :
    parseNumber writeFloat text =
      if isNatural (naturalPart text) then
        match parseFraction (fractionPart text) with
        | .error e => .error e
        | .ok (true, p) =>
          match writeFloat text with
          | none => .error .numberError
          | some d => if dirtyEnd p then .error .numberError else .ok ⟨d.bits, .floatingPointNumber⟩
        | .ok (false, p) => integerResult (isNegative text) (readDecimal 0 (naturalPart text)) p
      else .error .numberError := by
  have hstart : (if isNegative text = true then text.tail else text) = unsignedText text := by
    simp [isNegative, unsignedText]
  have hguard := isNatural_iff (all_takeWhile (unsignedText text))
  rw [head?_takeWhile_iff (by decide)] at hguard
  unfold parseNumber
  simp only [← isNegative.eq_def, hstart, parseDigits_zero, length_sub_dropWhile]
  by_cases hnatural : isNatural (naturalPart text) = true
  · rw [if_neg (hguard.mp hnatural), if_pos hnatural]
    have hsrc : isNegative text = false → text.head? = (naturalPart text).head? := by
      intro hsign
      have hsame : unsignedText text = text := if_neg (by simpa [isNegative] using hsign)
      have hall := all_of_isNatural hnatural
      have hhead := @head?_takeWhile_iff text
      match hparts : naturalPart text, hnatural, hall with
      | d :: digits, _, hall =>
        rw [List.all_cons, Bool.and_eq_true] at hall
        rw [naturalPart, hsame] at hparts
        rw [hparts] at hhead
        exact (hhead hall.1).mp rfl
    have hend := parseInteger_eq hnatural (isNegative text) hsrc
    unfold naturalPart fractionPart at *
    simp only [hend]
  · rw [if_pos (not_not.mp (mt hguard.mpr hnatural)), if_neg hnatural]

/-- The bytes of a token that is no string: it goes on up to a structural byte or white space. -/
def IsTokenText (text : Bytes) : Prop := text.all isNotStructuralOrWhitespace = true

instance (text : Bytes) : Decidable (IsTokenText text) := inferInstanceAs (Decidable (_ = _))

/-- In the text of a token every end but the last one is dirty. -/
theorem dirtyEnd_iff {text p : Bytes} (htext : IsTokenText text) (hp : p <:+ text) :
    dirtyEnd p = true ↔ p ≠ [] := by
  match p with
  | [] => decide
  | c :: p =>
    exact iff_of_true (List.all_eq_true.mp htext c (hp.subset List.mem_cons_self))
      (List.cons_ne_nil c p)

theorem parseExponentPart_suffix {isFloat b : Bool} {p p' : Bytes}
    (h : parseExponentPart isFloat p = .ok (b, p')) : p' <:+ p := by
  unfold parseExponentPart at h
  split at h
  case isTrue =>
    rw [parseExponent_eq] at h
    split at h
    case isTrue =>
      cases h
      have hsign : exponentDigits p.tail <:+ p.tail := by
        unfold exponentDigits
        split
        · exact List.tail_suffix _
        · exact List.suffix_refl _
      exact (List.dropWhile_suffix _).trans (hsign.trans (List.tail_suffix p))
    case isFalse => cases h
  case isFalse =>
    cases h
    exact List.suffix_refl p

theorem parseFraction_suffix {b : Bool} {p p' : Bytes} (h : parseFraction p = .ok (b, p')) :
    p' <:+ p := by
  unfold parseFraction at h
  split at h
  case isTrue =>
    rw [parseDecimalAfterSeparator_eq] at h
    split at h
    case isTrue =>
      exact (parseExponentPart_suffix h).trans
        ((List.dropWhile_suffix _).trans (List.tail_suffix p))
    case isFalse => cases h
  case isFalse => exact parseExponentPart_suffix h

theorem fractionPart_suffix (text : Bytes) : fractionPart text <:+ text := by
  have hsign : unsignedText text <:+ text := by
    unfold unsignedText
    split
    · exact List.tail_suffix text
    · exact List.suffix_refl text
  exact (List.dropWhile_suffix _).trans hsign

/-- The integers that `parse_number` has a type for. -/
def FitsInteger (negative : Bool) (m : ℕ) : Prop := if negative then m ≤ 2 ^ 63 else m < 2 ^ 64

instance (negative : Bool) (m : ℕ) : Decidable (FitsInteger negative m) :=
  inferInstanceAs (Decidable (if negative then _ else _))

theorem integerResult_ok_iff (negative : Bool) (m : ℕ) (p : Bytes) :
    (∃ n, integerResult negative m p = .ok n) ↔ FitsInteger negative m ∧ dirtyEnd p = false := by
  unfold integerResult FitsInteger
  cases negative with
  | true =>
    simp only [if_true]
    split_ifs with hbig hdirty
    · exact iff_of_false (by rintro ⟨n, hn⟩; cases hn) (by rintro ⟨hfits, -⟩; omega)
    · exact iff_of_false (by rintro ⟨n, hn⟩; cases hn) (by simp [hdirty])
    · exact iff_of_true ⟨_, rfl⟩ ⟨by omega, by simpa using hdirty⟩
  | false =>
    simp only [Bool.false_eq_true, if_false]
    generalize (if 2 ^ 63 ≤ m then NumberType.unsignedInteger else .signedInteger) = type
    split_ifs with hbig hdirty
    · exact iff_of_false (by rintro ⟨n, hn⟩; cases hn) (by rintro ⟨hfits, -⟩; omega)
    · refine iff_of_false (by rintro ⟨n, hn⟩; cases hn) ?_
      rintro ⟨hfits, hclean⟩
      rcases hdirty with hbig | hdirty
      · omega
      · cases hdirty.symm.trans hclean
    · rw [not_or] at hdirty
      exact iff_of_true ⟨_, rfl⟩ ⟨by omega, by simpa using hdirty.2⟩

/-- The parts of the grammar are read to their end. -/
theorem parseExponentPart_of_isExponent {p : Bytes} (h : isExponent p = true) (isFloat : Bool) :
    parseExponentPart isFloat p = .ok (isFloat || !p.isEmpty, []) := by
  match p, h with
  | [], _ => simp [parseExponentPart]
  | e :: p, h =>
    rw [isExponent_cons, Bool.and_eq_true] at h
    obtain ⟨he, hdigits⟩ := h
    have he' : e = 0x65 ∨ e = 0x45 := by simpa using he
    have hall : ∀ c ∈ exponentDigits p, isDigit c = true := by
      rw [isDigits, Bool.and_eq_true] at hdigits
      exact List.all_eq_true.mp hdigits.2
    rw [parseExponentPart, if_pos (by simpa using he'), List.tail_cons, parseExponent_eq,
      List.takeWhile_eq_self_iff.mpr hall, if_pos hdigits, List.dropWhile_eq_nil_iff.mpr hall]
    simp [Except.map]

theorem parseFraction_of_isFraction {p : Bytes} (h : isFraction p = true) :
    parseFraction p = .ok (!p.isEmpty, []) := by
  match p, h with
  | [], _ => rfl
  | b :: rest, h =>
    rw [isFraction] at h
    split at h
    case isTrue hpoint =>
      rw [Bool.and_eq_true] at h
      have hb : b = 0x2e := by simpa using hpoint
      rw [parseFraction, if_pos (by simp [hb]), List.tail_cons, parseDecimalAfterSeparator_eq,
        if_pos h.1]
      exact parseExponentPart_of_isExponent h.2 true
    case isFalse hpoint =>
      rw [parseFraction, if_neg (by simpa using hpoint)]
      exact parseExponentPart_of_isExponent h false

/-- What is accepted has been read to its end: a part that is not of the grammar is refused, or
ends before the token does. -/
theorem isFraction_of_parseNumber {writeFloat : Bytes → Option Binary64} {text : Bytes}
    (htext : IsTokenText text) (hnatural : isNatural (naturalPart text) = true) {n : Number}
    (hn : parseNumber writeFloat text = .ok n) : isFraction (fractionPart text) = true := by
  rw [parseNumber_eq, if_pos hnatural] at hn
  cases hparse : parseFraction (fractionPart text) with
  | error e =>
    rw [hparse] at hn
    cases hn
  | ok parts =>
    obtain ⟨b, p⟩ := parts
    rw [hparse] at hn
    have hclean : dirtyEnd p = false := by
      cases b with
      | true =>
        cases hfloat : writeFloat text with
        | none =>
          rw [hfloat] at hn
          cases hn
        | some d =>
          rw [hfloat] at hn
          by_contra hdirty
          simp only [Bool.not_eq_false] at hdirty
          simp [hdirty] at hn
      | false => exact ((integerResult_ok_iff _ _ _).mp ⟨n, hn⟩).2
    have hend : p = [] := by
      by_contra hne
      have hsuffix := (parseFraction_suffix hparse).trans (fractionPart_suffix text)
      cases ((dirtyEnd_iff htext hsuffix).mpr hne).symm.trans hclean
    subst hend
    exact isFraction_of_parseFraction hparse

/-- **What `parse_number` accepts**: of the texts of tokens exactly the numbers of the grammar,
provided that an integer fits into 64 bits and that `write_float` accepts a float. -/
theorem parseNumber_ok_iff (writeFloat : Bytes → Option Binary64) {text : Bytes}
    (htext : IsTokenText text) :
    (∃ n, parseNumber writeFloat text = .ok n) ↔
      isNumberText text = true ∧
        if fractionPart text = [] then
          FitsInteger (isNegative text) (readDecimal 0 (naturalPart text))
        else (writeFloat text).isSome := by
  rw [isNumberText_eq, Bool.and_eq_true]
  by_cases hnatural : isNatural (naturalPart text) = true
  · by_cases hfraction : isFraction (fractionPart text) = true
    · rw [parseNumber_eq, if_pos hnatural, parseFraction_of_isFraction hfraction]
      -- an integer, or a float
      by_cases hnone : fractionPart text = []
      · rw [hnone, if_pos rfl]
        show (∃ n, integerResult _ _ [] = .ok n) ↔ _
        rw [integerResult_ok_iff]
        simp [dirtyEnd, hnatural, hnone ▸ hfraction]
      · have hsome : (fractionPart text).isEmpty = false := by simpa using hnone
        rw [if_neg hnone, hsome]
        cases writeFloat text with
        | none => simp
        | some d => simp [dirtyEnd, hnatural, hfraction]
    · refine iff_of_false ?_ fun h => hfraction h.1.2
      rintro ⟨n, hn⟩
      exact hfraction (isFraction_of_parseNumber htext hnatural hn)
  · rw [parseNumber_eq, if_neg hnatural]
    exact iff_of_false (by rintro ⟨n, hn⟩; cases hn) fun h => hnatural h.1.1

/-- `123`, `-1.5e3` and what is no number of the grammar. -/
example : isNumberText [0x31, 0x32, 0x33] = true ∧
    isNumberText [0x2d, 0x31, 0x2e, 0x35, 0x65, 0x33] = true ∧
    isNumberText [0x30, 0x31] = false ∧ isNumberText [0x31, 0x2e] = false := by decide

/-! ## Big integers -/

/-- The text starts like an integer that is too big: below `-2^63`, or with more than 20 digits. -/
def startsBigInteger (text : Bytes) : Bool :=
  isNatural (naturalPart text) && decide (EndsInteger (fractionPart text)) &&
    if isNegative text then 2 ^ 63 < readDecimal 0 (naturalPart text)
    else 10 ^ 20 ≤ readDecimal 0 (naturalPart text)

theorem integerResult_bigint_iff (negative : Bool) (m : ℕ) (p : Bytes) :
    integerResult negative m p = .error .bigintError ↔
      (if negative then decide (2 ^ 63 < m) else decide (10 ^ 20 ≤ m)) = true := by
  unfold integerResult
  cases negative with
  | true =>
    simp only [if_true, decide_eq_true_eq]
    split_ifs with hbig
    · exact iff_of_true rfl hbig
    · exact iff_of_false (by simp) hbig
    · exact iff_of_false (by simp) hbig
  | false =>
    simp only [Bool.false_eq_true, if_false, decide_eq_true_eq]
    generalize (if 2 ^ 63 ≤ m then NumberType.unsignedInteger else .signedInteger) = type
    split_ifs with hbig
    · exact iff_of_true rfl hbig
    · exact iff_of_false (by simp) hbig
    · exact iff_of_false (by simp) hbig

/-- **When `BIGINT_ERROR` is answered.**  What follows the digits is not looked at. -/
theorem parseNumber_bigint_iff (writeFloat : Bytes → Option Binary64) (text : Bytes) :
    parseNumber writeFloat text = .error .bigintError ↔ startsBigInteger text = true := by
  rw [parseNumber_eq, startsBigInteger, Bool.and_eq_true, Bool.and_eq_true, decide_eq_true_eq]
  by_cases hnatural : isNatural (naturalPart text) = true
  · rw [if_pos hnatural]
    -- a float never has the error of an integer
    by_cases hends : EndsInteger (fractionPart text)
    · rw [parseFraction_of_endsInteger hends]
      simp [integerResult_bigint_iff, hnatural, hends]
    · refine iff_of_false ?_ fun h => hends h.1.2
      cases hparse : parseFraction (fractionPart text) with
      | error e =>
        rw [parseFraction_error hparse]
        simp
      | ok parts =>
        obtain ⟨b, p⟩ := parts
        cases b with
        | true =>
          cases writeFloat text with
          | none => simp
          | some d =>
            simp only
            split_ifs <;> simp
        | false => exact absurd (endsInteger_of_parseFraction hparse).1 hends
  · rw [if_neg hnatural]
    exact iff_of_false (by simp) fun h => hnatural h.1.1

/-- **What `parse_number` answers**: of the texts of tokens it accepts exactly the numbers of the
grammar that fit, and `BIGINT_ERROR` is for those that start like a big integer. -/
theorem parseNumber_accepts (writeFloat : Bytes → Option Binary64) (text : Bytes)
    (htext : IsTokenText text) :
    ((∃ n, parseNumber writeFloat text = .ok n) ↔
      isNumberText text = true ∧
        if fractionPart text = [] then
          FitsInteger (isNegative text) (readDecimal 0 (naturalPart text))
        else (writeFloat text).isSome) ∧
    (parseNumber writeFloat text = .error .bigintError ↔ startsBigInteger text = true) :=
  ⟨parseNumber_ok_iff writeFloat htext, parseNumber_bigint_iff writeFloat text⟩

/-- `1.5e3` -/
theorem parseNumber_accepts_exponent :
    ∃ n, parseNumber (fun _ => some ⟨0x4097700000000000⟩) [0x31, 0x2e, 0x35, 0x65, 0x33] = .ok n :=
  (parseNumber_accepts (fun _ => some ⟨0x4097700000000000⟩) [0x31, 0x2e, 0x35, 0x65, 0x33]
    (by decide)).1.mpr (by decide)

/-! ## Integers read back -/

theorem head?_decimalDigits_ne (m : ℕ) : (decimalDigits m).head? ≠ some 0x2d := by
  intro hhead
  have hall := all_of_isNatural (decimalDigits_spec m).1
  cases List.all_eq_true.mp hall _ (List.mem_of_head? hhead)

/-- The parts of an integer. -/
theorem parts_decimalText (z : ℤ) :
    isNegative (decimalText z) = decide (z < 0) ∧
      naturalPart (decimalText z) = decimalDigits z.natAbs ∧
      fractionPart (decimalText z) = [] := by
  have hall := List.all_eq_true.mp (all_of_isNatural (decimalDigits_spec z.natAbs).1)
  have hsign : isNegative (decimalText z) = decide (z < 0) ∧
      unsignedText (decimalText z) = decimalDigits z.natAbs := by
    unfold decimalText
    by_cases hz : z < 0
    · simp [hz, isNegative, unsignedText]
    · have hhead := head?_decimalDigits_ne z.natAbs
      rw [if_neg hz, isNegative, unsignedText, if_neg hhead, decide_eq_false hz]
      exact ⟨beq_eq_false_iff_ne.mpr hhead, rfl⟩
  refine ⟨hsign.1, ?_, ?_⟩
  · rw [naturalPart, hsign.2]
    exact List.takeWhile_eq_self_iff.mpr hall
  · rw [fractionPart, hsign.2]
    exact List.dropWhile_eq_nil_iff.mpr hall

/-- **Integers are read back**: as a signed or an unsigned number if they fit.  From `2^64` on
`NUMBER_ERROR` is answered up to 20 digits, and only then `BIGINT_ERROR`. -/
theorem parseNumber_decimalText (writeFloat : Bytes → Option Binary64) (z : ℤ) :
    parseNumber writeFloat (decimalText z) =
      if z < -2 ^ 63 ∨ 10 ^ 20 ≤ z then .error .bigintError
      else if 2 ^ 64 ≤ z then .error .numberError
      else .ok ⟨BitVec.ofInt 64 z, if 2 ^ 63 ≤ z then .unsignedInteger else .signedInteger⟩ := by
  obtain ⟨hsign, hnatural, hfraction⟩ := parts_decimalText z
  obtain ⟨hnumeral, hvalue⟩ := decimalDigits_spec z.natAbs
  rw [parseNumber_eq, hsign, hnatural, hfraction, if_pos hnumeral, hvalue]
  show integerResult (decide (z < 0)) z.natAbs [] = _
  unfold integerResult
  by_cases hz : z < 0
  · have habs : -(z.natAbs : ℤ) = z := by omega
    have hsmall : ¬ 2 ^ 64 ≤ z := by omega
    have hsigned : ¬ 2 ^ 63 ≤ z := by omega
    have hbig : 2 ^ 63 < z.natAbs ↔ z < -2 ^ 63 ∨ 10 ^ 20 ≤ z := by omega
    simp only [hz, decide_true, if_true, dirtyEnd, Bool.false_eq_true, if_false, habs, hsmall,
      hsigned, hbig]
  · have hcast : BitVec.ofNat 64 z.natAbs = BitVec.ofInt 64 z := by
      rw [← BitVec.ofInt_natCast, Int.natAbs_of_nonneg (not_lt.mp hz)]
    have hbig : 10 ^ 20 ≤ z.natAbs ↔ z < -2 ^ 63 ∨ 10 ^ 20 ≤ z := by omega
    have hlarge : 2 ^ 64 ≤ z.natAbs ↔ 2 ^ 64 ≤ z := by omega
    have hunsigned : 2 ^ 63 ≤ z.natAbs ↔ 2 ^ 63 ≤ z := by omega
    simp only [hz, decide_false, Bool.false_eq_true, if_false, dirtyEnd, or_false, hcast, hbig,
      hlarge, hunsigned]

end Dataprint
