import Mathlib.Algebra.Order.Field.Rat
import Mathlib.Algebra.Order.Ring.Int
import Mathlib.Algebra.Ring.Int.Defs
import Mathlib.Algebra.Ring.Nat
import Mathlib.Data.Rat.Defs
import Mathlib.Tactic.Common
import Mathlib.Tactic.Positivity

/-!
# Binary64 Numbers as Exact Dyadics

A `double` is its 64 bits.  Every finite one is an integer multiple of `2^-1074`, the
smallest subnormal, so its value is the integer `scaled` and comparisons, the test for
a fraction and truncation are integer operations on it.  Infinities keep their place in
the order by the same formula; NaNs compare with nothing.

`ofInt` rounds an integer to the nearest double, ties to even.
-/

namespace Foundations

/-- The bit pattern of a `double`. -/
structure Binary64 where
  bits : BitVec 64
  deriving DecidableEq, Repr

namespace Binary64

def sign (d : Binary64) : Bool := 2 ^ 63 ≤ d.bits.toNat

def exponentField (d : Binary64) : ℕ := d.bits.toNat / 2 ^ 52 % 2 ^ 11

def fractionField (d : Binary64) : ℕ := d.bits.toNat % 2 ^ 52

def isFinite (d : Binary64) : Bool := d.exponentField ≠ 2047

def isNaN (d : Binary64) : Bool := d.exponentField = 2047 ∧ d.fractionField ≠ 0

/-- The absolute value in units of `2^-1074`. -/
def magnitude (d : Binary64) : ℕ :=
  if d.exponentField = 0 then d.fractionField
  else (2 ^ 52 + d.fractionField) * 2 ^ (d.exponentField - 1)

/-- The value in units of `2^-1074`. -/
def scaled (d : Binary64) : ℤ := if d.sign then -d.magnitude else d.magnitude

/-- The value of a finite double. -/
def toRat (d : Binary64) : ℚ := d.scaled / 2 ^ 1074

/-- `a <= b` on doubles: false as soon as one of them is a NaN. -/
def le (a b : Binary64) : Bool := !a.isNaN && !b.isNaN && a.scaled ≤ b.scaled

/-- `modf(d, &intpart) == 0.0`: there is no fractional part.  It is a zero for infinities and
a NaN for NaNs. -/
def isWhole (d : Binary64) : Bool := !d.isNaN && d.magnitude % 2 ^ 1074 = 0

/-- Truncation toward zero. -/
def trunc (d : Binary64) : ℤ := d.scaled.tdiv (2 ^ 1074)

/-- The nearest double to a natural number, ties to even; too large ones give infinity.  A
carry out of the significand runs into the exponent field, as it should. -/
def ofNatBits (m : ℕ) : ℕ :=
  if m = 0 then 0
  else
    let e := m.log2
    let significand :=
      if e ≤ 52 then m * 2 ^ (52 - e)
      else
        let s := e - 52
        let q := m / 2 ^ s
        let r := m % 2 ^ s
        if r > 2 ^ (s - 1) ∨ r = 2 ^ (s - 1) ∧ q % 2 = 1 then q + 1 else q
    min (2047 * 2 ^ 52) ((e + 1023) * 2 ^ 52 + (significand - 2 ^ 52))

/-- The nearest double to an integer. -/
def ofInt (z : ℤ) : Binary64 :=
  ⟨BitVec.ofNat 64 ((if z < 0 then 2 ^ 63 else 0) + ofNatBits z.natAbs)⟩

/-- The smallest 64-bit signed integer is a double. -/
theorem scaled_ofInt_int64Min : (ofInt (-2 ^ 63)).scaled = -2 ^ 63 * 2 ^ 1074 := by decide +kernel

/-- The largest 64-bit signed integer is no double: the cast rounds it up to `2^63`. -/
theorem scaled_ofInt_int64Max : (ofInt (2 ^ 63 - 1)).scaled = 2 ^ 63 * 2 ^ 1074 := by
  decide +kernel

/-! ## A finite double is determined by its value, except for zero -/

theorem fractionField_lt (d : Binary64) : d.fractionField < 2 ^ 52 :=
  Nat.mod_lt _ (Nat.two_pow_pos 52)

/-- The word is put together from its fields. -/
theorem toNat_bits (d : Binary64) :
    d.bits.toNat = (if d.sign then 2 ^ 63 else 0) + d.exponentField * 2 ^ 52 + d.fractionField := by
  have hlt := d.bits.isLt
  simp only [sign, exponentField, fractionField, decide_eq_true_eq]
  split <;> omega

theorem ext_fields {a b : Binary64} (hs : a.sign = b.sign)
    (he : a.exponentField = b.exponentField) (hf : a.fractionField = b.fractionField) : a = b := by
  have hbits : a.bits = b.bits := by
    apply BitVec.eq_of_toNat_eq
    rw [toNat_bits a, toNat_bits b, hs, he, hf]
  cases a
  exact congrArg mk hbits

/-- The exponent bounds the magnitude from above. -/
theorem magnitude_lt (d : Binary64) : d.magnitude < 2 ^ 52 * 2 ^ d.exponentField := by
  have hf := d.fractionField_lt
  unfold magnitude
  split
  case isTrue h => simpa [h] using hf
  case isFalse h =>
    obtain ⟨e, he⟩ := Nat.exists_eq_succ_of_ne_zero h
    calc (2 ^ 52 + d.fractionField) * 2 ^ (d.exponentField - 1)
        = (2 ^ 52 + d.fractionField) * 2 ^ e := by rw [he, Nat.succ_sub_one]
      _ < (2 ^ 52 * 2) * 2 ^ e := Nat.mul_lt_mul_of_pos_right (by omega) (Nat.two_pow_pos e)
      _ = 2 ^ 52 * 2 ^ d.exponentField := by rw [he, Nat.mul_assoc, Nat.mul_comm 2, ← Nat.pow_succ]

/-- The exponent bounds the magnitude of a normal double from below. -/
theorem le_magnitude {d : Binary64} (h : d.exponentField ≠ 0) :
    2 ^ 52 * 2 ^ (d.exponentField - 1) ≤ d.magnitude := by
  rw [magnitude, if_neg h]
  exact Nat.mul_le_mul_right _ (Nat.le_add_right _ _)

theorem exponentField_le {a b : Binary64} (h : a.magnitude ≤ b.magnitude) :
    a.exponentField ≤ b.exponentField := by
  by_contra hlt
  have ha : a.exponentField ≠ 0 := by omega
  have hpow : 2 ^ b.exponentField ≤ 2 ^ (a.exponentField - 1) :=
    Nat.pow_le_pow_right (Nat.two_pos) (by omega)
  have hlow := le_magnitude ha
  have hhigh := b.magnitude_lt
  have := Nat.mul_le_mul_left (2 ^ 52) hpow
  omega

theorem eq_of_magnitude_eq {a b : Binary64} (hs : a.sign = b.sign)
    (h : a.magnitude = b.magnitude) : a = b := by
  have he := (exponentField_le h.le).antisymm (exponentField_le h.ge)
  refine ext_fields hs he ?_
  rw [magnitude, magnitude, he] at h
  split at h
  case isTrue => exact h
  case isFalse =>
    have := Nat.eq_of_mul_eq_mul_right (Nat.two_pow_pos _) h
    omega

theorem natAbs_scaled (d : Binary64) : d.scaled.natAbs = d.magnitude := by
  unfold scaled
  split
  case isTrue => rw [Int.natAbs_neg, Int.natAbs_natCast]
  case isFalse => exact Int.natAbs_natCast _

/-- **Doubles of the same value are the same**, up to the sign of a zero. -/
theorem eq_of_scaled_eq {a b : Binary64} (h : a.scaled = b.scaled) (hne : a.scaled ≠ 0) :
    a = b := by
  have hmag : a.magnitude = b.magnitude := by rw [← natAbs_scaled a, h, natAbs_scaled b]
  have hpos : 0 < a.magnitude := by
    rw [← natAbs_scaled a]
    exact Int.natAbs_pos.mpr hne
  refine eq_of_magnitude_eq ?_ hmag
  unfold scaled at h
  cases hsa : a.sign <;> cases hsb : b.sign <;> simp [hsa, hsb] at h ⊢ <;> omega

/-! ## Whole numbers -/

theorem not_isNaN_of_isFinite {d : Binary64} (h : d.isFinite = true) : d.isNaN = false := by
  simp only [isFinite, isNaN, decide_eq_true_eq, decide_eq_false_iff_not] at h ⊢
  exact fun hnan => h hnan.1

theorem isWhole_iff {d : Binary64} (h : d.isFinite = true) :
    d.isWhole = true ↔ (2 ^ 1074 : ℤ) ∣ d.scaled := by
  have hunit : (2 ^ 1074 : ℤ) = (2 ^ 1074 : ℕ) := by rw [Nat.cast_pow, Nat.cast_ofNat]
  rw [isWhole, not_isNaN_of_isFinite h, hunit, Int.natCast_dvd, natAbs_scaled,
    Nat.dvd_iff_mod_eq_zero]
  simp only [Bool.not_false, Bool.true_and, decide_eq_true_eq]

/-- Truncation changes nothing about a whole number. -/
theorem trunc_mul_of_isWhole {d : Binary64} (h : d.isFinite = true) (hw : d.isWhole = true) :
    d.trunc * 2 ^ 1074 = d.scaled :=
  Int.tdiv_mul_cancel ((isWhole_iff h).mp hw)

/-! ## Values -/

theorem unit_pos : (0 : ℚ) < 2 ^ 1074 := by positivity

theorem toRat_inj {a b : Binary64} : a.toRat = b.toRat ↔ a.scaled = b.scaled := by
  unfold toRat
  rw [div_left_inj' unit_pos.ne', Int.cast_inj]

theorem toRat_eq_intCast {d : Binary64} {z : ℤ} : d.toRat = z ↔ d.scaled = z * 2 ^ 1074 := by
  unfold toRat
  rw [div_eq_iff unit_pos.ne', ← Int.cast_inj (α := ℚ), Int.cast_mul, Int.cast_pow, Int.cast_ofNat]

/-- A whole double is worth its truncation. -/
theorem toRat_of_isWhole {d : Binary64} (h : d.isFinite = true) (hw : d.isWhole = true) :
    d.toRat = d.trunc :=
  toRat_eq_intCast.mpr (trunc_mul_of_isWhole h hw).symm

/-- A double that is worth an integer is whole, and truncates to it. -/
theorem isWhole_of_toRat_eq {d : Binary64} (h : d.isFinite = true) {z : ℤ} (hz : d.toRat = z) :
    d.isWhole = true ∧ d.trunc = z := by
  rw [toRat_eq_intCast] at hz
  refine ⟨(isWhole_iff h).mpr ⟨z, by rw [hz, Int.mul_comm]⟩, ?_⟩
  rw [trunc, hz]
  exact Int.mul_tdiv_cancel z (by positivity)

/-- Finite doubles compare like their values. -/
theorem le_iff {a b : Binary64} (ha : a.isFinite = true) (hb : b.isFinite = true) :
    a.le b = true ↔ a.scaled ≤ b.scaled := by
  rw [le, not_isNaN_of_isFinite ha, not_isNaN_of_isFinite hb]
  simp only [Bool.not_false, Bool.true_and, decide_eq_true_eq]

/-! ## Rounded integers -/

/-- The word of a positive number rounded starts with an exponent. -/
theorem ofNatBits_pos {m : ℕ} (h : m ≠ 0) : 0 < ofNatBits m := by
  unfold ofNatBits
  rw [if_neg h]
  simp only
  omega

theorem ofNatBits_le (m : ℕ) : ofNatBits m ≤ 2047 * 2 ^ 52 := by
  unfold ofNatBits
  split
  case isTrue => omega
  case isFalse => exact Nat.min_le_left _ _

/-- No integer but zero is rounded to a positive zero. -/
theorem ofInt_ne_zero {z : ℤ} (h : z ≠ 0) : ofInt z ≠ ⟨0⟩ := by
  intro hzero
  have hbits : (ofInt z).bits.toNat = 0 := by rw [hzero]; rfl
  have hpos := ofNatBits_pos (Int.natAbs_ne_zero.mpr h)
  have hle := ofNatBits_le z.natAbs
  rw [ofInt, BitVec.toNat_ofNat] at hbits
  split at hbits <;> omega

end Binary64

end Foundations
