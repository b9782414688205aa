import Mathlib.Algebra.Ring.Nat
import Mathlib.Order.Defs.LinearOrder
import Mathlib.Data.Nat.Basic
import Mathlib.Tactic.Common

/-!
# Fixed-Width Arithmetic

The 64- and 128-bit unsigned integers of the source, the addition modulo the prime
`2^127 - 1` that fingerprints are summed with, and the mixer of path hashes
(`include/utils.h`).

- `toNat_reduceModP`, `toNat_addMod` — both functions compute the residue exactly,
  for every 128-bit argument;
- `reduceModP_no_wrap`, `addMod_no_wrap` — the sums inside them never exceed 128 bits.
-/

namespace Dataprint

/-- `uint64_t`. -/
abbrev U64 := BitVec 64

/-- `__uint128_t`. -/
abbrev U128 := BitVec 128

/-- Unsigned comparison orders the values of one width linearly. -/
instance instLinearOrderBitVec {w : ℕ} : LinearOrder (BitVec w) where
  le_refl := BitVec.le_refl
  le_trans _ _ _ := BitVec.le_trans
  le_antisymm _ _ := BitVec.le_antisymm
  le_total := BitVec.le_total
  lt_iff_le_not_ge x y := by
    simp only [BitVec.lt_def, BitVec.le_def]
    omega
  toDecidableLE := inferInstance
  toDecidableEq := inferInstance
  toDecidableLT := inferInstance

/-- `MAKE_UINT128`: two 64-bit halves side by side. -/
def makeUint128 (hi lo : U64) : U128 :=
  (hi.setWidth 128 <<< 64) ||| lo.setWidth 128

/-- `PRIME`, the Mersenne prime `2^127 - 1`. -/
def PRIME : U128 := makeUint128 0x7FFFFFFFFFFFFFFF 0xFFFFFFFFFFFFFFFF

/-- Reduction modulo `PRIME` by folding the top bit: `x mod (2^127 - 1)` is congruent to
`(x >> 127) + (x & PRIME)`. -/
def reduceModP (x : U128) : U128 :=
  let r := (x >>> 127) + (x &&& PRIME)
  if r ≥ PRIME then r - PRIME else r

/-- Addition modulo `PRIME`. -/
def addMod (a b : U128) : U128 :=
  let a := reduceModP a
  let b := reduceModP b
  let r := a + b
  if r ≥ PRIME then r - PRIME else r

/-- Mixes a key into the path hash above it. -/
def mix (h k : U64) : U64 :=
  h ^^^ (k + 0x9e3779b97f4a7c15 + (h <<< 6) + (h >>> 2))

/-! ## The value of the modular sum -/

/-- The modulus as a number. -/
def primeNat : ℕ := 2 ^ 127 - 1

theorem toNat_PRIME : PRIME.toNat = 2 ^ 127 - 1 := by decide

theorem primeNat_pos : 0 < primeNat := by decide

/-- The two summands of the fold are the top bit and the low 127 bits. -/
theorem toNat_fold_summands (x : U128) :
    (x >>> 127).toNat = x.toNat / 2 ^ 127 ∧ (x &&& PRIME).toNat = x.toNat % 2 ^ 127 := by
  constructor
  · rw [BitVec.toNat_ushiftRight, Nat.shiftRight_eq_div_pow]
  · rw [BitVec.toNat_and, toNat_PRIME, Nat.and_two_pow_sub_one_eq_mod]

/-- The sum in `reduceModP` fits into 128 bits. -/
theorem reduceModP_no_wrap (x : U128) :
    (x >>> 127).toNat + (x &&& PRIME).toNat < 2 ^ 128 := by
  obtain ⟨h1, h2⟩ := toNat_fold_summands x
  have := x.isLt
  rw [h1, h2]
  omega

/-- One conditional subtraction finishes a sum that is below `2 * PRIME`. -/
theorem toNat_sub_if {r : U128} (hr : r.toNat < 2 * primeNat) :
    (if r ≥ PRIME then r - PRIME else r).toNat = r.toNat % primeNat := by
  have hP := toNat_PRIME
  unfold primeNat at *
  split <;> rename_i hge <;> simp only [ge_iff_le, BitVec.le_def, hP] at hge
  · rw [BitVec.toNat_sub_of_le (by rw [BitVec.le_def, hP]; exact hge), hP]
    omega
  · omega

/-- **`reduceModP` is the residue**, also for arguments that are not reduced. -/
theorem toNat_reduceModP (x : U128) : (reduceModP x).toNat = x.toNat % primeNat := by
  obtain ⟨h1, h2⟩ := toNat_fold_summands x
  have hx := x.isLt
  have hsum : ((x >>> 127) + (x &&& PRIME)).toNat = x.toNat / 2 ^ 127 + x.toNat % 2 ^ 127 := by
    rw [BitVec.toNat_add, Nat.mod_eq_of_lt (reduceModP_no_wrap x), h1, h2]
  unfold reduceModP
  rw [toNat_sub_if (by rw [hsum]; unfold primeNat; omega), hsum]
  unfold primeNat
  omega

theorem reduceModP_lt (x : U128) : (reduceModP x).toNat < primeNat := by
  rw [toNat_reduceModP]
  exact Nat.mod_lt _ primeNat_pos

/-- The sum in `addMod` fits into 128 bits. -/
theorem addMod_no_wrap (a b : U128) : (reduceModP a).toNat + (reduceModP b).toNat < 2 ^ 128 := by
  have ha := reduceModP_lt a
  have hb := reduceModP_lt b
  unfold primeNat at ha hb
  omega

/-- **`addMod` is exact addition modulo `2^127 - 1`** on all 128-bit arguments. -/
theorem toNat_addMod (a b : U128) : (addMod a b).toNat = (a.toNat + b.toNat) % primeNat := by
  have hsum : (reduceModP a + reduceModP b).toNat =
      (reduceModP a).toNat + (reduceModP b).toNat := by
    rw [BitVec.toNat_add, Nat.mod_eq_of_lt (addMod_no_wrap a b)]
  have ha := reduceModP_lt a
  have hb := reduceModP_lt b
  unfold addMod
  rw [toNat_sub_if (by rw [hsum]; omega), hsum, toNat_reduceModP, toNat_reduceModP,
    ← Nat.add_mod]

theorem addMod_lt (a b : U128) : (addMod a b).toNat < primeNat := by
  rw [toNat_addMod]
  exact Nat.mod_lt _ primeNat_pos

end Dataprint
