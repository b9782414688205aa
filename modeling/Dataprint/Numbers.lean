import Dataprint.Hashing
import Dataprint.NumberParsing
import Mathlib.Tactic.NormNum

/-!
# Hashing Numbers

A number is parsed as a signed integer, as an unsigned one or as a double, and `XXHash` means to
feed the same bytes for the same value: an integer as the 16 bytes of an `__int128_t`, any
other number as the 8 bytes of a double (`src/processor.cpp`).

- `Canonical` is the form in which a number is hashed, `canonical` the one that the branches
  of the source give it, and `numberBytes_eq` says that the bytes are those of the form;
- `Canonical.bytes_injective` — different forms are different bytes;
- `canonical_of_int64` and `Number.HasValue.of_canonical` say where form and value agree.  They
  do not for unsigned integers and doubles from `2^63` on, and not for the double `2^63`
  itself, which the rounded bound of the guard lets through.
-/

namespace Dataprint

open Foundations

/-! ## Values -/

/-- The value of a parsed number: a double must be finite. -/
inductive Number.HasValue : Number → ℚ → Prop where
  | signed (x : U64) : HasValue ⟨x, .signedInteger⟩ x.toInt
  | unsigned (x : U64) : HasValue ⟨x, .unsignedInteger⟩ x.toNat
  | double {d : Binary64} : d.isFinite = true → HasValue ⟨d.bits, .floatingPointNumber⟩ d.toRat

/-! ## Canonical forms -/

/-- What the bytes of a number stand for. -/
inductive Canonical where
  | integer (z : ℤ)
  | double (d : Binary64)

/-- The bytes of an `__int128_t`. -/
def intBytes (z : ℤ) : Bytes := leBytes 16 (BitVec.ofInt 128 z).toNat

def Canonical.bytes : Canonical → Bytes
  | .integer z => intBytes z
  | .double d => doubleBytes d

/-- Integers are those of 64 bits, signed or unsigned. -/
def Canonical.InRange : Canonical → Prop
  | .integer z => -2 ^ 63 ≤ z ∧ z < 2 ^ 64
  | .double _ => True

theorem toInt_bounds (x : U64) : -2 ^ 63 ≤ x.toInt ∧ x.toInt < 2 ^ 63 :=
  ⟨x.le_toInt, x.toInt_lt⟩

/-- A signed 64-bit integer survives the cast. -/
theorem toInt_ofInt64 {z : ℤ} (hlow : -2 ^ 63 ≤ z) (hhigh : z < 2 ^ 63) :
    (BitVec.ofInt 64 z).toInt = z :=
  BitVec.toInt_ofInt_eq_self (by decide) hlow hhigh

/-- Integers of 64 bits do not wrap around at 128. -/
theorem intBytes_injective {z z' : ℤ} (hz : -2 ^ 63 ≤ z ∧ z < 2 ^ 64)
    (hz' : -2 ^ 63 ≤ z' ∧ z' < 2 ^ 64) (h : intBytes z = intBytes z') : z = z' := by
  have hword : BitVec.ofInt 128 z = BitVec.ofInt 128 z' := leBytes_toNat_injective (Nat.le_refl _) h
  have hself : ∀ {y : ℤ}, -2 ^ 63 ≤ y ∧ y < 2 ^ 64 → (BitVec.ofInt 128 y).toInt = y :=
    fun hy => BitVec.toInt_ofInt_eq_self (by decide) (by omega) (by omega)
  rw [← hself hz, hword, hself hz']

/-- **Different forms are different bytes**: 16 of an integer and 8 of a double. -/
theorem Canonical.bytes_injective {c c' : Canonical} (hc : c.InRange) (hc' : c'.InRange)
    (h : c.bytes = c'.bytes) : c = c' := by
  cases c with
  | integer z =>
    cases c' with
    | integer z' => rw [intBytes_injective hc hc' h]
    | double d' =>
      -- 16 bytes against 8
      have hlen := congrArg List.length h
      simp [Canonical.bytes, intBytes, doubleBytes] at hlen
  | double d =>
    cases c' with
    | integer z' =>
      have hlen := congrArg List.length h
      simp [Canonical.bytes, intBytes, doubleBytes] at hlen
    | double d' =>
      have hbits : d.bits = d'.bits := leBytes_toNat_injective (Nat.le_refl _) h
      cases d
      exact congrArg (fun bits => Canonical.double ⟨bits⟩) hbits

theorem wideBytes_eq (x : U64) : wideBytes x = intBytes x.toInt := rfl

theorem wideBytes_ofInt {z : ℤ} (hlow : -2 ^ 63 ≤ z) (hhigh : z < 2 ^ 63) :
    wideBytes (BitVec.ofInt 64 z) = intBytes z := by
  rw [wideBytes_eq, toInt_ofInt64 hlow hhigh]

theorem unsignedBytes_eq (x : U64) : leBytes 16 (x.setWidth 128).toNat = intBytes x.toNat := by
  rw [intBytes, BitVec.ofInt_natCast, BitVec.ofNat_toNat]

variable (env : Env)

/-- The form of a double.  What the cast of `2^63` gives is not determined. -/
def canonicalDouble (d : Binary64) : Canonical :=
  if d.isWhole ∧ -2 ^ 63 ≤ d.trunc ∧ d.trunc < 2 ^ 63 then .integer d.trunc
  else if d.isWhole ∧ d.trunc = 2 ^ 63 then .integer (env.castOverflow d).toInt
  else .double d

/-- The form of a parsed number. -/
def canonical (n : Number) : Canonical :=
  match n.type with
  | .signedInteger => .integer n.payload.toInt
  | .unsignedInteger => .integer n.payload.toNat
  | _ => canonicalDouble env n.getDouble

/-- What the guard of the cast lets through: the whole numbers from `-2^63` to `2^63`. -/
theorem guard_iff {d : Binary64} (h : d.isFinite = true) :
    (d.isWhole ∧ (Binary64.ofInt (-2 ^ 63)).le d ∧ d.le (Binary64.ofInt (2 ^ 63 - 1))) ↔
      d.isWhole ∧ -2 ^ 63 ≤ d.trunc ∧ d.trunc ≤ 2 ^ 63 := by
  have hmin : (Binary64.ofInt (-2 ^ 63)).isFinite = true := by decide +kernel
  have hmax : (Binary64.ofInt (2 ^ 63 - 1)).isFinite = true := by decide +kernel
  have hunit : (0 : ℤ) < 2 ^ 1074 := by positivity
  -- `int64` max is no double: the bound of the source rounds up to `2^63`
  rw [Binary64.le_iff hmin h, Binary64.le_iff h hmax, Binary64.scaled_ofInt_int64Min,
    Binary64.scaled_ofInt_int64Max]
  apply and_congr_right
  intro hw
  -- all three are counted in units of `2^-1074`, which cancel
  rw [← Binary64.trunc_mul_of_isWhole h hw, Int.mul_le_mul_iff_of_pos_right hunit,
    Int.mul_le_mul_iff_of_pos_right hunit]

/-- The bytes of a finite double are those of its form. -/
theorem numberBytes_double {d : Binary64} (h : d.isFinite = true) :
    numberBytes env ⟨d.bits, .floatingPointNumber⟩ = some (canonicalDouble env d).bytes := by
  show (if d.isWhole ∧ (Binary64.ofInt (-2 ^ 63)).le d ∧ d.le (Binary64.ofInt (2 ^ 63 - 1)) then
    some (wideBytes (castInt64 env d)) else some (doubleBytes d)) = _
  simp only [guard_iff h, canonicalDouble]
  by_cases hin : d.isWhole ∧ -2 ^ 63 ≤ d.trunc ∧ d.trunc < 2 ^ 63
  · -- the cast is exact
    obtain ⟨hw, hlow, hhigh⟩ := hin
    rw [if_pos ⟨hw, hlow, hhigh.le⟩, if_pos ⟨hw, hlow, hhigh⟩, castInt64,
      if_pos ⟨hlow, hhigh⟩, wideBytes_ofInt hlow hhigh]
    rfl
  · rw [if_neg hin]
    by_cases hbound : d.isWhole ∧ d.trunc = 2 ^ 63
    · -- the guard lets the double through, and the cast does not fit
      obtain ⟨hw, htrunc⟩ := hbound
      have hover : ¬ (-2 ^ 63 ≤ d.trunc ∧ d.trunc < 2 ^ 63) := by omega
      rw [if_pos ⟨hw, by omega, htrunc.le⟩, if_pos ⟨hw, htrunc⟩, castInt64, if_neg hover,
        wideBytes_eq]
      rfl
    · have hout : ¬ (d.isWhole ∧ -2 ^ 63 ≤ d.trunc ∧ d.trunc ≤ 2 ^ 63) := by
        rintro ⟨hw, hlow, hhigh⟩
        rcases hhigh.lt_or_eq with hlt | heq
        · exact hin ⟨hw, hlow, hlt⟩
        · exact hbound ⟨hw, heq⟩
      rw [if_neg hout, if_neg hbound]
      rfl

/-- **The bytes of a parsed number are those of its form.** -/
theorem numberBytes_eq {n : Number} {q : ℚ} (h : n.HasValue q) :
    numberBytes env n = some (canonical env n).bytes := by
  cases h with
  | signed x => rfl
  | unsigned x => exact congrArg some (unsignedBytes_eq x)
  | double hfinite => exact numberBytes_double env hfinite

/-! ## Form and value -/

theorem canonicalDouble_inRange (d : Binary64) : (canonicalDouble env d).InRange := by
  unfold canonicalDouble
  split
  case isTrue h => exact ⟨h.2.1, by omega⟩
  case isFalse =>
    split
    case isTrue =>
      have := toInt_bounds (env.castOverflow d)
      exact ⟨this.1, by omega⟩
    case isFalse => trivial

theorem canonical_inRange {n : Number} {q : ℚ} (h : n.HasValue q) :
    (canonical env n).InRange := by
  cases h with
  | signed x =>
    have := toInt_bounds x
    exact ⟨this.1, by show x.toInt < 2 ^ 64; omega⟩
  | unsigned x =>
    have := x.isLt
    exact ⟨by show -2 ^ 63 ≤ (x.toNat : ℤ); omega, by show (x.toNat : ℤ) < 2 ^ 64; omega⟩
  | @double d _ => exact canonicalDouble_inRange env d

/-- Two parsed numbers are hashed alike exactly if they have one form. -/
theorem numberBytes_inj {n n' : Number} {q q' : ℚ} (h : n.HasValue q) (h' : n'.HasValue q') :
    numberBytes env n = numberBytes env n' ↔ canonical env n = canonical env n' := by
  rw [numberBytes_eq env h, numberBytes_eq env h']
  constructor
  · intro hbytes
    exact Canonical.bytes_injective (canonical_inRange env h) (canonical_inRange env h')
      (Option.some.inj hbytes)
  · intro hform
    rw [hform]

/-- **A value that is a signed 64-bit integer has one form**, whatever its notation. -/
theorem canonical_of_int64 {n : Number} {z : ℤ} (h : n.HasValue z) (hlow : -2 ^ 63 ≤ z)
    (hhigh : z < 2 ^ 63) : canonical env n = .integer z := by
  generalize hq : (z : ℚ) = q at h
  cases h with
  | signed x => rw [Int.cast_inj.mp hq]; rfl
  | unsigned x =>
    have hz : z = x.toNat := by exact_mod_cast hq
    rw [hz]
    rfl
  | @double d hfinite =>
    -- a double of an integer value is whole, so the guard lets it through to an exact cast
    obtain ⟨hw, htrunc⟩ := Binary64.isWhole_of_toRat_eq hfinite hq.symm
    show canonicalDouble env d = _
    rw [canonicalDouble, htrunc, if_pos ⟨hw, hlow, hhigh⟩]

/-- The double `2^63` has the form that the cast happens to give it. -/
theorem canonicalDouble_overflow {d : Binary64} (h : d.isFinite = true) (hd : d.toRat = 2 ^ 63) :
    canonicalDouble env d = .integer (env.castOverflow d).toInt := by
  have hcast : d.toRat = ((2 ^ 63 : ℤ) : ℚ) := by rw [hd]; norm_num
  obtain ⟨hw, htrunc⟩ := Binary64.isWhole_of_toRat_eq h hcast
  rw [canonicalDouble, if_neg (by rw [htrunc]; omega), if_pos ⟨hw, htrunc⟩]

/-- Every other form tells the value. -/
theorem Number.HasValue.of_canonical {n : Number} {q : ℚ} (h : n.HasValue q)
    (hover : ¬ (n.type = .floatingPointNumber ∧ q = 2 ^ 63)) :
    match canonical env n with
    | .integer z => q = z
    | .double d => q = d.toRat := by
  cases h with
  | signed x => rfl
  | unsigned x => exact (Int.cast_natCast x.toNat).symm
  | @double d hfinite =>
    show match canonicalDouble env d with
      | .integer z => d.toRat = z
      | .double d' => d.toRat = d'.toRat
    by_cases hin : d.isWhole ∧ -2 ^ 63 ≤ d.trunc ∧ d.trunc < 2 ^ 63
    · rw [canonicalDouble, if_pos hin]
      exact Binary64.toRat_of_isWhole hfinite hin.1
    · have hbound : ¬ (d.isWhole ∧ d.trunc = 2 ^ 63) := by
        rintro ⟨hw, htrunc⟩
        apply hover
        refine ⟨rfl, ?_⟩
        rw [Binary64.toRat_of_isWhole hfinite hw, htrunc]
        norm_num
      rw [canonicalDouble, if_neg hin, if_neg hbound]

/-! ## Equal values -/

/-- A value that is no signed 64-bit integer has two notations at most. -/
theorem Number.HasValue.cases_outside {n : Number} {q : ℚ} (h : n.HasValue q)
    (hout : ∀ z : ℤ, q = z → -2 ^ 63 ≤ z → ¬ z < 2 ^ 63) :
    (∃ x : U64, n = ⟨x, .unsignedInteger⟩ ∧ q = x.toNat ∧ 2 ^ 63 ≤ x.toNat) ∨
    (∃ d : Binary64, n = ⟨d.bits, .floatingPointNumber⟩ ∧ q = d.toRat ∧ d.toRat ≠ 0) := by
  cases h with
  | signed x =>
    have hx := toInt_bounds x
    exact absurd hx.2 (hout _ rfl hx.1)
  | unsigned x =>
    refine .inl ⟨x, rfl, rfl, ?_⟩
    have := hout x.toNat (Int.cast_natCast x.toNat).symm (by omega)
    omega
  | @double d hfinite =>
    refine .inr ⟨d, rfl, rfl, fun hzero => ?_⟩
    exact hout 0 (by rw [hzero, Int.cast_zero]) (by omega) (by omega)

/-- The integer of a double's form is a signed one. -/
theorem lt_of_canonicalDouble {d : Binary64} {z : ℤ}
    (h : canonicalDouble env d = .integer z) : z < 2 ^ 63 := by
  unfold canonicalDouble at h
  split at h
  case isTrue hin =>
    cases h
    exact hin.2.2
  case isFalse =>
    split at h
    case isTrue =>
      cases h
      exact (toInt_bounds _).2
    case isFalse => cases h

/-- One value from `2^63` on, as an unsigned integer and as a double. -/
def MixedAbove (q : ℚ) (n n' : Number) : Prop :=
  2 ^ 63 ≤ q ∧
    (n.type = .unsignedInteger ∧ n'.type = .floatingPointNumber ∨
      n.type = .floatingPointNumber ∧ n'.type = .unsignedInteger)

theorem canonical_unsigned_ne_double {x : U64} (hx : 2 ^ 63 ≤ x.toNat) (d : Binary64) :
    canonical env ⟨x, .unsignedInteger⟩ ≠ canonical env ⟨d.bits, .floatingPointNumber⟩ := by
  intro hform
  have hlt := lt_of_canonicalDouble env (z := x.toNat) hform.symm
  omega

/-- **Numbers of one value have one form**, except for mixed notations from `2^63` on. -/
theorem canonical_eq_iff_of_value {n n' : Number} {q : ℚ} (h : n.HasValue q)
    (h' : n'.HasValue q) : canonical env n = canonical env n' ↔ ¬ MixedAbove q n n' := by
  by_cases hint : ∃ z : ℤ, q = z ∧ -2 ^ 63 ≤ z ∧ z < 2 ^ 63
  · -- a signed 64-bit integer has one form in all three notations
    obtain ⟨z, rfl, hlow, hhigh⟩ := hint
    rw [canonical_of_int64 env h hlow hhigh, canonical_of_int64 env h' hlow hhigh]
    have hlt : (z : ℚ) < 2 ^ 63 := by exact_mod_cast hhigh
    exact iff_of_true rfl fun hmixed => absurd hmixed.1 (not_le.mpr hlt)
  · have hout : ∀ z : ℤ, q = z → -2 ^ 63 ≤ z → ¬ z < 2 ^ 63 :=
      fun z hz hlow hhigh => hint ⟨z, hz, hlow, hhigh⟩
    have hge : ∀ x : U64, q = x.toNat → 2 ^ 63 ≤ x.toNat → (2 ^ 63 : ℚ) ≤ q := by
      intro x hq hx
      rw [hq]
      exact_mod_cast hx
    rcases h.cases_outside hout with ⟨x, rfl, hx, hxge⟩ | ⟨d, rfl, hd, hdne⟩
    · rcases h'.cases_outside hout with ⟨y, rfl, hy, -⟩ | ⟨d', rfl, -, -⟩
      · -- both unsigned
        have hxy : x = y := BitVec.eq_of_toNat_eq (by exact_mod_cast hx.symm.trans hy)
        subst hxy
        exact iff_of_true rfl fun hmixed => by simp [MixedAbove] at hmixed
      · refine iff_of_false (canonical_unsigned_ne_double env hxge d') (not_not.mpr ?_)
        exact ⟨hge x hx hxge, .inl ⟨rfl, rfl⟩⟩
    · rcases h'.cases_outside hout with ⟨y, rfl, hy, hyge⟩ | ⟨d', rfl, hd', -⟩
      · refine iff_of_false (canonical_unsigned_ne_double env hyge d).symm (not_not.mpr ?_)
        exact ⟨hge y hy hyge, .inr ⟨rfl, rfl⟩⟩
      · -- both doubles, and not the two zeros
        have hscaled := Binary64.toRat_inj.mp (hd.symm.trans hd')
        have hne : d.scaled ≠ 0 := by
          intro hzero
          apply hdne
          rw [Binary64.toRat, hzero, Int.cast_zero, zero_div]
        rw [Binary64.eq_of_scaled_eq hscaled hne]
        exact iff_of_true rfl fun hmixed => by simp [MixedAbove] at hmixed

/-! ## Different values -/

/-- The double `2^63` next to the integer that its cast happens to give. -/
def CastCollides (n : Number) (q q' : ℚ) : Prop :=
  n.type = .floatingPointNumber ∧ q = 2 ^ 63 ∧ q' = (env.castOverflow n.getDouble).toInt

theorem canonical_overflow {n : Number} {q : ℚ} (h : n.HasValue q)
    (hover : n.type = .floatingPointNumber ∧ q = 2 ^ 63) :
    canonical env n = .integer (env.castOverflow n.getDouble).toInt := by
  obtain ⟨htype, hq⟩ := hover
  cases h with
  | signed x => cases htype
  | unsigned x => cases htype
  | double hfinite => exact canonicalDouble_overflow env hfinite hq

/-- A form that only the double `2^63` can lend to another value. -/
theorem canonical_overflow_eq_iff {n n' : Number} {q q' : ℚ} (h : n.HasValue q)
    (h' : n'.HasValue q') (hne : q ≠ q') (hover : n.type = .floatingPointNumber ∧ q = 2 ^ 63) :
    canonical env n = canonical env n' ↔ q' = (env.castOverflow n.getDouble).toInt := by
  rw [canonical_overflow env h hover]
  constructor
  · intro hform
    -- the other number is not `2^63` too, so its form is its value
    have hvalue := h'.of_canonical env fun hover' => hne (hover.2.trans hover'.2.symm)
    rwa [← hform] at hvalue
  · rintro rfl
    have hbounds := toInt_bounds (env.castOverflow n.getDouble)
    exact (canonical_of_int64 env h' hbounds.1 hbounds.2).symm

/-- **Numbers of different values have different forms**, except for the double `2^63`. -/
theorem canonical_eq_iff_of_ne {n n' : Number} {q q' : ℚ} (h : n.HasValue q)
    (h' : n'.HasValue q') (hne : q ≠ q') :
    canonical env n = canonical env n' ↔ CastCollides env n q q' ∨ CastCollides env n' q' q := by
  by_cases hover : n.type = .floatingPointNumber ∧ q = 2 ^ 63
  · rw [canonical_overflow_eq_iff env h h' hne hover]
    constructor
    · intro hq'
      exact .inl ⟨hover.1, hover.2, hq'⟩
    · rintro (⟨-, -, hq'⟩ | ⟨-, hq', -⟩)
      · exact hq'
      · exact absurd (hover.2.trans hq'.symm) hne
  · by_cases hover' : n'.type = .floatingPointNumber ∧ q' = 2 ^ 63
    · rw [eq_comm, canonical_overflow_eq_iff env h' h hne.symm hover']
      constructor
      · intro hq
        exact .inr ⟨hover'.1, hover'.2, hq⟩
      · rintro (⟨htype, hq, -⟩ | ⟨-, -, hq⟩)
        · exact absurd ⟨htype, hq⟩ hover
        · exact hq
    · -- both forms tell their values
      have hvalue := h.of_canonical env hover
      have hvalue' := h'.of_canonical env hover'
      refine iff_of_false (fun hform => hne ?_) ?_
      · rw [← hform] at hvalue'
        cases hc : canonical env n with
        | integer z =>
          rw [hc] at hvalue hvalue'
          exact hvalue.trans hvalue'.symm
        | double d =>
          rw [hc] at hvalue hvalue'
          exact hvalue.trans hvalue'.symm
      · rintro (⟨htype, hq, -⟩ | ⟨htype, hq, -⟩)
        · exact hover ⟨htype, hq⟩
        · exact hover' ⟨htype, hq⟩

/-! ## Number tokens -/

/-- Getters for examples: literals, strings without escapes, and numbers from a table.  What it
leaves out is parsed, and refused if it is a float. -/
def Simdjson.ofNumbers (table : List (Bytes × Number)) : Simdjson :=
  { Simdjson.refusing with
    getString := fun t => .ok t.text.tail.dropLast
    getNumber := fun t =>
      match table.lookup t.text with
      | some n => .ok n
      | none => parseNumber (fun _ => none) t.text
    getBool := fun t =>
      if t.text = trueText then .ok true
      else if t.text = falseText then .ok false
      else .error .incorrectType }

/-- simdjson parses the token as a number of this value. -/
structure ParsedAs (t : Token) (n : Number) (q : ℚ) : Prop where
  type : t.type = .number
  getNumber : env.simd.getNumber t = .ok n
  value : n.HasValue q

theorem ParsedAs.scalarBytes_eq {t : Token} {n : Number} {q : ℚ} (h : ParsedAs env t n q) :
    scalarBytes env t = .ok (numberBytes env n) := by
  unfold scalarBytes
  rw [h.type]
  simp only [h.getNumber, getInto]
  rfl

theorem ParsedAs.scalarBytes_inj {t t' : Token} {n n' : Number} {q q' : ℚ}
    (h : ParsedAs env t n q) (h' : ParsedAs env t' n' q') :
    scalarBytes env t = scalarBytes env t' ↔ canonical env n = canonical env n' := by
  rw [h.scalarBytes_eq, h'.scalarBytes_eq, ← numberBytes_inj env h.value h'.value, Except.ok.injEq]

/-- **When equal numbers hash equally**: two notations of one value feed the same bytes, except
for an unsigned integer from `2^63` on and the double of the same value. -/
theorem equal_numbers_hash_equally (t t' : Token) (n n' : Number) (q : ℚ)
    (h : ParsedAs env t n q) (h' : ParsedAs env t' n' q) :
    scalarBytes env t = scalarBytes env t' ↔
      ¬ (2 ^ 63 ≤ q ∧
        (n.type = .unsignedInteger ∧ n'.type = .floatingPointNumber ∨
          n.type = .floatingPointNumber ∧ n'.type = .unsignedInteger)) := by
  rw [h.scalarBytes_inj env h']
  exact canonical_eq_iff_of_value env h.value h'.value

/-- One, as an integer and in exponent notation. -/
theorem equal_numbers_hash_equally_one :
    let one : Number := ⟨1, .signedInteger⟩
    let oneE0 : Number := ⟨(Binary64.ofInt 1).bits, .floatingPointNumber⟩
    let env := Env.plain (.ofNumbers [([0x31], one), ([0x31, 0x65, 0x30], oneE0)])
    scalarBytes env (.ofText [0x31]) = scalarBytes env (.ofText [0x31, 0x65, 0x30]) := by
  intro one oneE0 env
  have hvalue : (Binary64.ofInt 1).toRat = (1 : ℤ) :=
    Binary64.toRat_eq_intCast.mpr (by decide +kernel)
  have hinteger : ParsedAs env (.ofText [0x31]) one (1 : ℤ) := ⟨rfl, rfl, .signed 1⟩
  have hdouble : ParsedAs env (.ofText [0x31, 0x65, 0x30]) oneE0 (1 : ℤ) :=
    ⟨rfl, rfl, hvalue ▸ .double (by decide +kernel)⟩
  exact (equal_numbers_hash_equally env _ _ _ _ _ hinteger hdouble).mpr fun hmixed =>
    absurd hmixed.1 (by norm_num)

/-- `10000000000000000000` and `1e19` have one value and feed different bytes. -/
theorem unequal_bytes_of_equal_numbers :
    let unsigned : Number := ⟨0x8ac7230489e80000, .unsignedInteger⟩
    let double : Number := ⟨(Binary64.ofInt (10 ^ 19)).bits, .floatingPointNumber⟩
    let env := Env.plain (.ofNumbers
      [(decimalText (10 ^ 19), unsigned), ([0x31, 0x65, 0x31, 0x39], double)])
    ParsedAs env (integerToken (10 ^ 19)) unsigned (10 ^ 19) ∧
    ParsedAs env (.ofText [0x31, 0x65, 0x31, 0x39]) double (10 ^ 19) ∧
    scalarBytes env (integerToken (10 ^ 19)) ≠
      scalarBytes env (.ofText [0x31, 0x65, 0x31, 0x39]) := by
  intro unsigned double env
  have hcast : ((10 ^ 19 : ℤ) : ℚ) = 10 ^ 19 := by norm_num
  have hvalue : (Binary64.ofInt (10 ^ 19)).toRat = 10 ^ 19 :=
    hcast ▸ Binary64.toRat_eq_intCast.mpr (by decide +kernel)
  have hnat : ((unsigned.payload.toNat : ℕ) : ℚ) = 10 ^ 19 := by
    rw [show unsigned.payload.toNat = 10 ^ 19 from by decide]
    norm_num
  have hinteger : ParsedAs env (integerToken (10 ^ 19)) unsigned (10 ^ 19) :=
    ⟨integerToken_type _, rfl, hnat ▸ .unsigned unsigned.payload⟩
  have hdouble : ParsedAs env (.ofText [0x31, 0x65, 0x31, 0x39]) double (10 ^ 19) :=
    ⟨rfl, rfl, hvalue ▸ .double (by decide +kernel)⟩
  refine ⟨hinteger, hdouble, ?_⟩
  rw [ne_eq, hinteger.scalarBytes_inj env hdouble]
  exact canonical_unsigned_ne_double env (by decide) _

/-- **When the cast of a double fits, and numbers stay apart.**  A double that passes the guard is a
signed 64-bit integer and cast exactly, unless it is `2^63`; and numbers of different values feed
different bytes, unless one is the double `2^63` and the other the integer that its cast gives. -/
theorem whole_doubles_in_range :
    (∀ d : Binary64, d.isFinite = true →
      d.isWhole ∧ (Binary64.ofInt (-2 ^ 63)).le d ∧ d.le (Binary64.ofInt (2 ^ 63 - 1)) →
      ((-2 ^ 63 ≤ d.toRat ∧ d.toRat ≤ 2 ^ 63 - 1 ∧ (castInt64 env d).toInt = d.toRat) ↔
        d.toRat ≠ 2 ^ 63)) ∧
    ∀ (t t' : Token) (n n' : Number) (q q' : ℚ),
      ParsedAs env t n q → ParsedAs env t' n' q' → q ≠ q' →
      (scalarBytes env t ≠ scalarBytes env t' ↔
        ¬ CastCollides env n q q' ∧ ¬ CastCollides env n' q' q) := by
  constructor
  · intro d hfinite hguard
    obtain ⟨hw, hlow, hhigh⟩ := (guard_iff hfinite).mp hguard
    rw [Binary64.toRat_of_isWhole hfinite hw]
    constructor
    · rintro ⟨-, hle, -⟩ heq
      rw [heq] at hle
      norm_num at hle
    · intro hne
      have hlt : d.trunc < 2 ^ 63 := by
        refine lt_of_le_of_ne hhigh fun heq => hne ?_
        rw [heq]
        norm_num
      refine ⟨by exact_mod_cast hlow, ?_, ?_⟩
      · have hpred : d.trunc ≤ 2 ^ 63 - 1 := by omega
        exact_mod_cast hpred
      · rw [castInt64, if_pos ⟨hlow, hlt⟩, toInt_ofInt64 hlow hlt]
  · intro t t' n n' q q' h h' hne
    rw [ne_eq, h.scalarBytes_inj env h', canonical_eq_iff_of_ne env h.value h'.value hne, not_or]

/-- The double one passes the guard, and one and two feed different bytes. -/
theorem whole_doubles_in_range_one :
    let one : Number := ⟨1, .signedInteger⟩
    let two : Number := ⟨2, .signedInteger⟩
    let env := Env.plain (.ofNumbers [([0x31], one), ([0x32], two)])
    (castInt64 env (Binary64.ofInt 1)).toInt = (Binary64.ofInt 1).toRat ∧
    scalarBytes env (.ofText [0x31]) ≠ scalarBytes env (.ofText [0x32]) := by
  intro one two env
  have hvalue : (Binary64.ofInt 1).toRat = (1 : ℤ) :=
    Binary64.toRat_eq_intCast.mpr (by decide +kernel)
  have hrange := (whole_doubles_in_range env).1 (Binary64.ofInt 1) (by decide +kernel)
    (by decide +kernel)
  have hone : ParsedAs env (.ofText [0x31]) one (1 : ℤ) := ⟨rfl, rfl, .signed 1⟩
  have htwo : ParsedAs env (.ofText [0x32]) two (2 : ℤ) := ⟨rfl, rfl, .signed 2⟩
  have hapart := (whole_doubles_in_range env).2 _ _ _ _ _ _ hone htwo (by norm_num)
  have hfits : (Binary64.ofInt 1).toRat ≠ 2 ^ 63 := by
    rw [hvalue]
    norm_num
  refine ⟨(hrange.mpr hfits).2.2, hapart.mpr ⟨?_, ?_⟩⟩
  · rintro ⟨htype, -⟩
    cases htype
  · rintro ⟨htype, -⟩
    cases htype

/-- The double `2^63` passes the guard and is out of range.  Where the cast gives the smallest
integer, `9223372036854775808.0` feeds the bytes of `-9223372036854775808`. -/
theorem two_pow_63_passes_guard :
    let d := Binary64.ofInt (2 ^ 63)
    let integer : Number := ⟨0x8000000000000000, .signedInteger⟩
    let double : Number := ⟨d.bits, .floatingPointNumber⟩
    let text := decimalText (2 ^ 63) ++ [0x2e, 0x30]
    let env := { Env.plain (.ofNumbers [(decimalText (-2 ^ 63), integer), (text, double)]) with
      castOverflow := fun _ => 0x8000000000000000 }
    (d.isWhole ∧ (Binary64.ofInt (-2 ^ 63)).le d ∧ d.le (Binary64.ofInt (2 ^ 63 - 1))) ∧
    ¬ d.toRat ≤ 2 ^ 63 - 1 ∧
    ParsedAs env (integerToken (-2 ^ 63)) integer (-2 ^ 63) ∧
    ParsedAs env (.ofText text) double (2 ^ 63) ∧
    scalarBytes env (integerToken (-2 ^ 63)) = scalarBytes env (.ofText text) := by
  intro d integer double text env
  have hfinite : d.isFinite = true := by decide +kernel
  have hcast : ((2 ^ 63 : ℤ) : ℚ) = 2 ^ 63 := by norm_num
  have hvalue : d.toRat = 2 ^ 63 := hcast ▸ Binary64.toRat_eq_intCast.mpr (by decide +kernel)
  have hmin : ((integer.payload.toInt : ℤ) : ℚ) = -2 ^ 63 := by
    rw [show integer.payload.toInt = -2 ^ 63 from by decide]
    norm_num
  have hinteger : ParsedAs env (integerToken (-2 ^ 63)) integer (-2 ^ 63) :=
    ⟨integerToken_type _, rfl, hmin ▸ .signed integer.payload⟩
  have hdouble : ParsedAs env (.ofText text) double (2 ^ 63) :=
    ⟨rfl, rfl, hvalue ▸ .double hfinite⟩
  refine ⟨by decide +kernel, ?_, hinteger, hdouble, ?_⟩
  · rw [hvalue]
    norm_num
  · rw [hinteger.scalarBytes_inj env hdouble]
    exact (canonicalDouble_overflow env hfinite hvalue).symm

/-! ## Big integers -/

/-- The token is an integer that no 64-bit type holds, and simdjson says so. -/
structure IsBigInteger (t : Token) (z : ℤ) : Prop where
  text : t.text = decimalText z
  outOfRange : z < -2 ^ 63 ∨ 2 ^ 64 ≤ z
  getNumber : env.simd.getNumber t = .error .bigintError

/-- What is hashed is the number that was never written, read as a double. -/
theorem IsBigInteger.scalarBytes_eq {t : Token} {z : ℤ} (h : IsBigInteger env t z) :
    scalarBytes env t = .ok (some (doubleBytes ⟨0⟩)) := by
  have htype : t.type = .number := by rw [Token.type, h.text, typeOfText_decimalText]
  unfold scalarBytes
  rw [htype]
  simp only [h.getNumber, getInto]
  rfl

/-- **Big integers are never hashed by their own approximation**: all of them feed the same bytes,
and never those of the nearest double. -/
theorem big_integers_hash_alike (t t' : Token) (z z' : ℤ) (h : IsBigInteger env t z)
    (h' : IsBigInteger env t' z') :
    scalarBytes env t = scalarBytes env t' ∧
    scalarBytes env t ≠ .ok (some (doubleBytes (Binary64.ofInt z))) := by
  rw [h.scalarBytes_eq, h'.scalarBytes_eq]
  refine ⟨rfl, fun heq => ?_⟩
  have hz : z ≠ 0 := by
    have := h.outOfRange
    omega
  -- the bytes fed are those of zero, and only zero rounds to it
  rw [Except.ok.injEq, Option.some.injEq] at heq
  have hbits : (0 : U64) = (Binary64.ofInt z).bits := leBytes_toNat_injective (Nat.le_refl _) heq
  apply Binary64.ofInt_ne_zero hz
  exact congrArg Binary64.mk hbits.symm

/-- simdjson calls an integer of 21 digits a big one. -/
theorem isBigInteger_of_le {z : ℤ} (h : 10 ^ 20 ≤ z) :
    IsBigInteger (Env.plain (.ofNumbers [])) (integerToken z) z where
  text := rfl
  outOfRange := .inr (by omega)
  getNumber := by
    show parseNumber (fun _ => none) (decimalText z) = _
    rw [parseNumber_decimalText, if_pos (.inr h)]

/-- `100000000000000000000` and its double. -/
theorem big_integers_hash_alike_ten_pow_20 :
    let env := Env.plain (.ofNumbers [])
    scalarBytes env (integerToken (10 ^ 20)) = scalarBytes env (integerToken (2 * 10 ^ 20)) := by
  intro env
  exact (big_integers_hash_alike env _ _ _ _ (isBigInteger_of_le le_rfl)
    (isBigInteger_of_le (by norm_num))).1

/-- Two big integers with different approximations feed the same bytes. -/
theorem equal_bytes_of_big_integers :
    let env := Env.plain (.ofNumbers [])
    Binary64.ofInt (10 ^ 20) ≠ Binary64.ofInt (2 * 10 ^ 20) ∧
    IsBigInteger env (integerToken (10 ^ 20)) (10 ^ 20) ∧
    IsBigInteger env (integerToken (2 * 10 ^ 20)) (2 * 10 ^ 20) ∧
    scalarBytes env (integerToken (10 ^ 20)) = scalarBytes env (integerToken (2 * 10 ^ 20)) := by
  intro env
  have h : IsBigInteger env (integerToken (10 ^ 20)) (10 ^ 20) := isBigInteger_of_le le_rfl
  have h' : IsBigInteger env (integerToken (2 * 10 ^ 20)) (2 * 10 ^ 20) :=
    isBigInteger_of_le (by norm_num)
  refine ⟨by decide +kernel, h, h', ?_⟩
  rw [h.scalarBytes_eq, h'.scalarBytes_eq]

end Dataprint
