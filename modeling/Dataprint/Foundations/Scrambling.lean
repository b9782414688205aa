import Mathlib.Logic.Function.Basic
import Mathlib.Tactic.Common

/-!
# Invertible Steps on Machine Words

Finalizers of hash functions alternate two kinds of steps, and neither loses anything:

- `xorShift_involutive` — xoring a word with its own right shift by at least half the
  width undoes itself;
- `mul_leftInverse` — a product by a word with an inverse is undone by the inverse.

`scramble` puts a product between two such shifts.  `cross` combines two words by their xor and by
the xor of two products, which does lose something if both factors are odd:

- `cross_flip` — flipping the top bits of both words changes nothing;
- `cross_low_bit` — the two results end in the same bit.
-/

namespace Foundations

variable {w : ℕ}

/-- `x ^ (x >> s)` -/
def xorShift (s : ℕ) (x : BitVec w) : BitVec w := x ^^^ x >>> s

/-- The word, shifted out of its width by the second pass, cancels. -/
theorem xorShift_involutive {s : ℕ} (h : w ≤ 2 * s) :
    Function.Involutive (xorShift s : BitVec w → BitVec w) := by
  intro x
  have hout : x >>> s >>> s = 0#w := by
    rw [← BitVec.shiftRight_add]
    exact BitVec.ushiftRight_eq_zero (by omega)
  calc x ^^^ x >>> s ^^^ (x ^^^ x >>> s) >>> s
      = x ^^^ x >>> s ^^^ (x >>> s ^^^ x >>> s >>> s) := by rw [BitVec.ushiftRight_xor_distrib]
    _ = x ^^^ (x >>> s ^^^ x >>> s) := by rw [hout, BitVec.xor_zero, BitVec.xor_assoc]
    _ = x := by rw [BitVec.xor_self, BitVec.xor_zero]

theorem mul_leftInverse {m n : BitVec w} (h : m * n = 1) :
    Function.LeftInverse (· * n) (· * m) := by
  intro x
  show x * m * n = x
  rw [BitVec.mul_assoc, h]
  exact BitVec.mul_one x

/-- A shift, a product and a shift. -/
def scramble (s t : ℕ) (m x : BitVec w) : BitVec w := xorShift t (xorShift s x * m)

/-- **No two words are scrambled alike.** -/
theorem scramble_injective {s t : ℕ} (hs : w ≤ 2 * s) (ht : w ≤ 2 * t) {m n : BitVec w}
    (h : m * n = 1) : Function.Injective (scramble s t m) := by
  have hmul : Function.Injective (· * m) := (mul_leftInverse h).injective
  exact (xorShift_involutive ht).injective.comp (hmul.comp (xorShift_involutive hs).injective)

/-- **Every word is some scrambled word.** -/
theorem scramble_surjective {s t : ℕ} (hs : w ≤ 2 * s) (ht : w ≤ 2 * t) {m n : BitVec w}
    (h : m * n = 1) : Function.Surjective (scramble s t m) := by
  have hinverse : n * m = 1 := by
    rw [BitVec.mul_comm]
    exact h
  have hmul : Function.Surjective (· * m) := (mul_leftInverse hinverse).surjective
  exact (xorShift_involutive ht).surjective.comp (hmul.comp (xorShift_involutive hs).surjective)

/-! ## The top bit -/

/-- Adding the top bit flips it: there is no carry below it. -/
theorem add_intMin (x : BitVec w) : x + BitVec.intMin w = x ^^^ BitVec.intMin w := by
  have hcarry : ∀ i < w, BitVec.carry i x (BitVec.intMin w) false = false := by
    intro i hi
    induction i with
    | zero => exact BitVec.carry_zero
    | succ i ih =>
      have hbit : (BitVec.intMin w).getLsbD i = false := by
        rw [BitVec.getLsbD_intMin]
        exact decide_eq_false (Nat.ne_of_lt hi)
      rw [BitVec.carry_succ, ih (Nat.lt_of_succ_lt hi), hbit]
      simp [Bool.atLeastTwo]
  apply BitVec.eq_of_getLsbD_eq
  intro i hi
  rw [BitVec.getLsbD_add hi, hcarry i hi, BitVec.getLsbD_xor, Bool.xor_false]

/-- An odd multiple of the top bit is the top bit. -/
theorem intMin_mul_odd {m : BitVec w} (hm : m.getLsbD 0 = true) :
    BitVec.intMin w * m = BitVec.intMin w := by
  rw [BitVec.intMin, BitVec.twoPow_mul_eq_shiftLeft]
  apply BitVec.eq_of_getLsbD_eq
  intro i hi
  rw [BitVec.getLsbD_shiftLeft, BitVec.getLsbD_twoPow]
  by_cases htop : i = w - 1
  · -- the low bit has come to the top
    subst htop
    simp [hm, hi]
  · have hbelow : i < w - 1 := by omega
    simp [hbelow, Ne.symm htop]

/-- Flipping the top bit of a factor flips the top bit of an odd multiple. -/
theorem xor_intMin_mul_odd {m : BitVec w} (hm : m.getLsbD 0 = true) (x : BitVec w) :
    (x ^^^ BitVec.intMin w) * m = x * m ^^^ BitVec.intMin w := by
  rw [← add_intMin, BitVec.add_mul, intMin_mul_odd hm, add_intMin]

/-- An odd multiple ends like the word. -/
theorem getLsbD_zero_mul_odd {m : BitVec w} (hm : m.getLsbD 0 = true) (x : BitVec w) :
    (x * m).getLsbD 0 = x.getLsbD 0 := by
  have hlow : ∀ y : BitVec w, y.getLsbD 0 = decide (y.toNat % 2 = 1) := fun y => Nat.testBit_zero _
  cases w with
  | zero => simp [BitVec.of_length_zero]
  | succ w =>
    have hodd : m.toNat % 2 = 1 := of_decide_eq_true ((hlow m).symm.trans hm)
    rw [hlow, hlow, BitVec.toNat_mul, Nat.pow_succ, Nat.mod_mul_left_mod, Nat.mul_mod, hodd,
      Nat.mul_one, Nat.mod_mod]

/-! ## Combining two words -/

/-- The xor of two words, and the xor of a multiple of each. -/
def cross (m n x y : BitVec w) : BitVec w × BitVec w := (x ^^^ y, x * m ^^^ y * n)

/-- **Two flips cancel**: flipping the top bits of both words is not seen. -/
theorem cross_flip {m n : BitVec w} (hm : m.getLsbD 0 = true) (hn : n.getLsbD 0 = true)
    (x y : BitVec w) :
    cross m n (x ^^^ BitVec.intMin w) (y ^^^ BitVec.intMin w) = cross m n x y := by
  have hcancel : ∀ a b : BitVec w,
      (a ^^^ BitVec.intMin w) ^^^ (b ^^^ BitVec.intMin w) = a ^^^ b := by
    intro a b
    rw [BitVec.xor_assoc, BitVec.xor_comm b, ← BitVec.xor_assoc (BitVec.intMin w), BitVec.xor_self,
      BitVec.zero_xor]
  rw [cross, cross, xor_intMin_mul_odd hm, xor_intMin_mul_odd hn, hcancel, hcancel]

/-- **The low bits agree.** -/
theorem cross_low_bit {m n : BitVec w} (hm : m.getLsbD 0 = true) (hn : n.getLsbD 0 = true)
    (x y : BitVec w) : (cross m n x y).1.getLsbD 0 = (cross m n x y).2.getLsbD 0 := by
  rw [cross, BitVec.getLsbD_xor, BitVec.getLsbD_xor, getLsbD_zero_mul_odd hm,
    getLsbD_zero_mul_odd hn]

end Foundations
