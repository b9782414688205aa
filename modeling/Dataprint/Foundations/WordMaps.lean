import Dataprint.Foundations.Scrambling
import Mathlib.Algebra.Ring.Nat
import Mathlib.Data.Nat.ModEq
import Mathlib.Data.Nat.Prime.Basic

/-!
# Injective Maps of Machine Words

The steps that hash functions for short inputs are made of, and that tell all words apart.

- `mul_odd_injective` — a product by an odd word;
- `xorShift_injective` — a word xored with its own right shift, by any amount;
- `xorRotate_injective` — a word xored with two of its rotations: doing it again doubles both
  amounts, until nothing is rotated any more;
- `xorShiftAdd_injective` — a word xored with its shift and a small constant;
- `addLowMul_injective` — a word to which an even multiple of its low part is added.
-/

namespace Foundations

variable {w : ℕ}

/-- **An odd factor loses nothing.** -/
theorem mul_odd_injective {m : BitVec w} (hm : m.getLsbD 0 = true) :
    Function.Injective (· * m : BitVec w → BitVec w) := by
  have hodd : m.toNat % 2 = 1 := by
    have hlow : m.getLsbD 0 = decide (m.toNat % 2 = 1) := Nat.testBit_zero _
    rw [hm] at hlow
    exact of_decide_eq_true hlow.symm
  have hcoprime : Nat.gcd (2 ^ w) m.toNat = 1 := by
    apply Nat.Coprime.pow_left
    rw [Nat.coprime_two_left, Nat.odd_iff]
    exact hodd
  intro x y h
  have hmod : x.toNat * m.toNat ≡ y.toNat * m.toNat [MOD 2 ^ w] := by
    have hnat := congrArg BitVec.toNat h
    simpa only [BitVec.toNat_mul, Nat.ModEq] using hnat
  apply BitVec.eq_of_toNat_eq
  exact (Nat.ModEq.cancel_right_of_coprime hcoprime hmod).eq_of_lt_of_lt x.isLt y.isLt

/-! ## Shifts -/

/-- Doing it again doubles the amount. -/
theorem xorShift_xorShift (s : ℕ) (x : BitVec w) :
    xorShift s (xorShift s x) = xorShift (s + s) x :=
  calc x ^^^ x >>> s ^^^ (x ^^^ x >>> s) >>> s
      = x ^^^ x >>> s ^^^ (x >>> s ^^^ x >>> s >>> s) := by rw [BitVec.ushiftRight_xor_distrib]
    _ = x ^^^ (x >>> s ^^^ x >>> s) ^^^ x >>> (s + s) := by
      rw [BitVec.shiftRight_add, BitVec.xor_assoc, BitVec.xor_assoc, BitVec.xor_assoc]
    _ = x ^^^ x >>> (s + s) := by rw [BitVec.xor_self, BitVec.xor_zero]

/-- **Xoring with a shift loses nothing**, by whatever amount. -/
theorem xorShift_injective {s : ℕ} (hs : 0 < s) :
    Function.Injective (xorShift s : BitVec w → BitVec w) := by
  induction hn : w - s using Nat.strongRecOn generalizing s with
  | ind n ih =>
    subst hn
    by_cases hout : w ≤ s
    · -- everything is shifted out
      have hid : (xorShift s : BitVec w → BitVec w) = id := by
        funext x
        rw [xorShift, BitVec.ushiftRight_eq_zero hout, BitVec.xor_zero]
        rfl
      rw [hid]
      exact Function.injective_id
    · have hdouble : (xorShift s ∘ xorShift s : BitVec w → BitVec w) = xorShift (s + s) :=
        funext (xorShift_xorShift s)
      apply Function.Injective.of_comp (f := xorShift s)
      rw [hdouble]
      exact ih (w - (s + s)) (by omega) (by omega) rfl

/-- `x ^ ((x >> s) + c)` -/
def xorShiftAdd (s : ℕ) (c x : BitVec w) : BitVec w := x ^^^ (x >>> s + c)

/-- **What is added stays below the bits that are shifted.** -/
theorem xorShiftAdd_injective {s : ℕ} {c : BitVec w} (hc : 2 ^ (w - s) + c.toNat ≤ 2 ^ s) :
    Function.Injective (xorShiftAdd s c) := by
  -- the high bits can be read off
  have hhigh : ∀ x : BitVec w, xorShiftAdd s c x >>> s = x >>> s := by
    intro x
    have hshift : (x >>> s).toNat < 2 ^ (w - s) := by
      rw [BitVec.toNat_ushiftRight, Nat.shiftRight_eq_div_pow]
      apply Nat.div_lt_of_lt_mul
      apply Nat.lt_of_lt_of_le x.isLt
      rw [← Nat.pow_add]
      exact Nat.pow_le_pow_right (by omega) (by omega)
    have hsum : (x >>> s + c).toNat < 2 ^ s := by
      rw [BitVec.toNat_add]
      exact Nat.lt_of_le_of_lt (Nat.mod_le _ _) (by omega)
    have hout : (x >>> s + c) >>> s = 0#w := by
      apply BitVec.eq_of_toNat_eq
      rw [BitVec.toNat_ushiftRight, Nat.shiftRight_eq_div_pow, Nat.div_eq_of_lt hsum]
      rfl
    rw [xorShiftAdd, BitVec.ushiftRight_xor_distrib, hout, BitVec.xor_zero]
  intro x y h
  have hsame : x >>> s = y >>> s := by rw [← hhigh x, ← hhigh y, h]
  rw [xorShiftAdd, xorShiftAdd, hsame] at h
  exact (BitVec.xor_left_inj _).mp h

/-! ## Rotations -/

/-- A bit moves up by the amount, round the end of the word. -/
theorem getLsbD_rotateLeft_add_mod (x : BitVec w) (r : ℕ) {j : ℕ} (hj : j < w) :
    (x.rotateLeft r).getLsbD ((j + r) % w) = x.getLsbD j := by
  have hr : r % w < w := Nat.mod_lt _ (by omega)
  have hmod : (j + r) % w = (j + r % w) % w := (Nat.add_mod_mod j r w).symm
  rw [BitVec.getLsbD_rotateLeft, hmod]
  rcases Nat.lt_or_ge (j + r % w) w with hlt | hge
  · rw [Nat.mod_eq_of_lt hlt]
    simp [hlt, show ¬ j + r % w < r % w by omega]
  · have hback : (j + r % w) % w = j + r % w - w := by
      rw [Nat.mod_eq_sub_mod hge, Nat.mod_eq_of_lt (by omega)]
    rw [hback]
    simp [show j + r % w - w < r % w by omega, show w - r % w + (j + r % w - w) = j by omega]

/-- Words with the same bits, each moved up by some amount, are the same. -/
theorem eq_of_getLsbD_add_mod {x y : BitVec w} (r : ℕ)
    (h : ∀ j < w, x.getLsbD ((j + r) % w) = y.getLsbD ((j + r) % w)) : x = y := by
  apply BitVec.eq_of_getLsbD_eq
  intro i hi
  have hle : r ≤ w * r := Nat.le_mul_of_pos_left r (by omega)
  have hi' : ((i + w * r - r) % w + r) % w = i := by
    rw [Nat.mod_add_mod, Nat.sub_add_cancel (by omega), Nat.add_mul_mod_self_left,
      Nat.mod_eq_of_lt hi]
  have hbit := h ((i + w * r - r) % w) (Nat.mod_lt _ (by omega))
  rwa [hi'] at hbit

theorem rotateLeft_rotateLeft (x : BitVec w) (r s : ℕ) :
    (x.rotateLeft r).rotateLeft s = x.rotateLeft (r + s) := by
  apply eq_of_getLsbD_add_mod (r + s)
  intro j hj
  have hstep : (j + (r + s)) % w = ((j + r) % w + s) % w := by
    rw [Nat.mod_add_mod, Nat.add_assoc]
  rw [getLsbD_rotateLeft_add_mod x (r + s) hj, hstep,
    getLsbD_rotateLeft_add_mod _ s (Nat.mod_lt _ (by omega)), getLsbD_rotateLeft_add_mod x r hj]

theorem rotateLeft_xor (x y : BitVec w) (r : ℕ) :
    (x ^^^ y).rotateLeft r = x.rotateLeft r ^^^ y.rotateLeft r := by
  apply eq_of_getLsbD_add_mod r
  intro j hj
  rw [BitVec.getLsbD_xor, getLsbD_rotateLeft_add_mod _ r hj, getLsbD_rotateLeft_add_mod _ r hj,
    getLsbD_rotateLeft_add_mod _ r hj, BitVec.getLsbD_xor]

/-- `x ^ (x <<< r) ^ (x <<< s)`, with rotations. -/
def xorRotate (r s : ℕ) (x : BitVec w) : BitVec w := x ^^^ x.rotateLeft r ^^^ x.rotateLeft s

/-- Doing it again doubles both amounts: what is rotated by both comes twice. -/
theorem xorRotate_xorRotate (r s : ℕ) (x : BitVec w) :
    xorRotate r s (xorRotate r s x) = xorRotate (2 * r) (2 * s) x := by
  have hboth : (x.rotateLeft r).rotateLeft s = (x.rotateLeft s).rotateLeft r := by
    rw [rotateLeft_rotateLeft, rotateLeft_rotateLeft, Nat.add_comm]
  have hcancel : ∀ a b c d e f : Bool,
      (a ^^ b ^^ c ^^ (b ^^ d ^^ e) ^^ (c ^^ e ^^ f)) = (a ^^ d ^^ f) := by decide
  simp only [xorRotate, rotateLeft_xor, hboth]
  rw [rotateLeft_rotateLeft x r r, rotateLeft_rotateLeft x s s, ← Nat.two_mul, ← Nat.two_mul]
  apply BitVec.eq_of_getLsbD_eq
  intro i _
  simp only [BitVec.getLsbD_xor]
  exact hcancel _ _ _ _ _ _

/-- **Xoring with two rotations loses nothing**, if the width is a power of two. -/
theorem xorRotate_injective {k : ℕ} (hw : w = 2 ^ k) (r s : ℕ) :
    Function.Injective (xorRotate r s : BitVec w → BitVec w) := by
  have hiterate : ∀ n,
      Function.Injective (xorRotate (2 ^ n * r) (2 ^ n * s) : BitVec w → BitVec w) →
      Function.Injective (xorRotate r s : BitVec w → BitVec w) := by
    intro n
    induction n with
    | zero => simp
    | succ n ih =>
      intro h
      apply ih
      apply Function.Injective.of_comp (f := xorRotate (2 ^ n * r) (2 ^ n * s))
      have hdouble : (xorRotate (2 ^ n * r) (2 ^ n * s) ∘ xorRotate (2 ^ n * r) (2 ^ n * s) :
          BitVec w → BitVec w) = xorRotate (2 ^ (n + 1) * r) (2 ^ (n + 1) * s) := by
        funext x
        rw [Function.comp_apply, xorRotate_xorRotate, Nat.pow_succ', Nat.mul_assoc, Nat.mul_assoc]
      rwa [hdouble]
  apply hiterate k
  -- rotations by multiples of the width do nothing, and two of the three words cancel
  have hfull : ∀ (x : BitVec w) (n : ℕ), x.rotateLeft (w * n) = x := by
    intro x n
    apply eq_of_getLsbD_add_mod (w * n)
    intro j hj
    rw [getLsbD_rotateLeft_add_mod x _ hj, Nat.add_mul_mod_self_left, Nat.mod_eq_of_lt hj]
  have hid : (xorRotate (2 ^ k * r) (2 ^ k * s) : BitVec w → BitVec w) = id := by
    funext x
    rw [← hw, xorRotate, hfull, hfull, BitVec.xor_self, BitVec.zero_xor]
    rfl
  rw [hid]
  exact Function.injective_id

/-! ## Products of the low part -/

/-- `x + lo(x) * c`, where `lo(x)` are the low `k` bits. -/
def addLowMul (k : ℕ) (c x : BitVec w) : BitVec w := x + (x.setWidth k).setWidth w * c

/-- **Adding an even multiple of the low part loses nothing.** -/
theorem addLowMul_injective {k : ℕ} (hk : k ≤ w) {c : BitVec w}
    (hc : (1 + c.setWidth k).getLsbD 0 = true) : Function.Injective (addLowMul k c) := by
  -- the low part has become an odd multiple of itself
  have hlow : ∀ x : BitVec w, (addLowMul k c x).setWidth k = x.setWidth k * (1 + c.setWidth k) := by
    intro x
    rw [addLowMul, BitVec.setWidth_add _ _ hk, BitVec.setWidth_mul _ _ hk,
      BitVec.setWidth_setWidth_of_le _ hk, BitVec.setWidth_eq, BitVec.mul_add]
    exact congrArg (· + _) (BitVec.mul_one _).symm
  intro x y h
  have hsame : x.setWidth k = y.setWidth k := by
    apply mul_odd_injective hc
    show x.setWidth k * _ = y.setWidth k * _
    rw [← hlow, ← hlow, h]
  rw [addLowMul, addLowMul, hsame] at h
  exact (BitVec.add_left_inj _).mp h

end Foundations
