import Mathlib.Tactic.Common
import Mathlib.Algebra.Ring.Nat

/-!
# Scanning a Text Sixty-Four Bytes at a Time

A predicate on the bytes of a block is a word, with one bit for each byte, and a scan that would go
from byte to byte is a few operations on such words.

- `getLsbD_prefixXor`, `getLsbD_clmul_allOnes` — two ways to the parity of all bits up to each one;
- `getLsbD_escapeCode` — of the bits of a run every second one, by a subtraction;
- `trailingZeroes_of_setBits_eq_cons`, `setBits_clearLowestBit` — the places of all bits, lowest
  first, one after another.
-/

namespace Foundations

variable {w : ℕ}

/-! ## Parity -/

/-- The parity of the first `n` bits. -/
def parity (f : ℕ → Bool) : ℕ → Bool
  | 0 => false
  | n + 1 => (parity f n ^^ f n)

@[simp] theorem parity_zero (f : ℕ → Bool) : parity f 0 = false := rfl

theorem parity_succ (f : ℕ → Bool) (n : ℕ) : parity f (n + 1) = (parity f n ^^ f n) := rfl

/-- `x ^ (x << s)` -/
def shiftXor (s : ℕ) (x : BitVec w) : BitVec w := x ^^^ x <<< s

/-- Doing it again doubles the amount. -/
theorem shiftXor_shiftXor (s : ℕ) (x : BitVec w) :
    shiftXor s (shiftXor s x) = shiftXor (s + s) x :=
  calc x ^^^ x <<< s ^^^ (x ^^^ x <<< s) <<< s
      = x ^^^ x <<< s ^^^ (x <<< s ^^^ x <<< s <<< s) := by rw [BitVec.shiftLeft_xor_distrib]
    _ = x ^^^ (x <<< s ^^^ x <<< s) ^^^ x <<< (s + s) := by
      rw [← BitVec.shiftLeft_add, BitVec.xor_assoc, BitVec.xor_assoc, BitVec.xor_assoc]
    _ = x ^^^ x <<< (s + s) := by rw [BitVec.xor_self, BitVec.xor_zero]

theorem shiftXor_comm (s t : ℕ) (x : BitVec w) :
    shiftXor s (shiftXor t x) = shiftXor t (shiftXor s x) := by
  simp only [shiftXor, BitVec.shiftLeft_xor_distrib, ← BitVec.shiftLeft_add, Nat.add_comm t s]
  ac_rfl

/-- The shifts by `1, 2, 4, …`, of which there are `k`. -/
def prefixXor : ℕ → BitVec w → BitVec w
  | 0, x => x
  | k + 1, x => shiftXor (2 ^ k) (prefixXor k x)

/-- One more shift by one makes them one shift. -/
theorem shiftXor_one_prefixXor (k : ℕ) (x : BitVec w) :
    shiftXor 1 (prefixXor k x) = shiftXor (2 ^ k) x := by
  induction k with
  | zero => rfl
  | succ k ih =>
    rw [prefixXor, shiftXor_comm, ih, shiftXor_shiftXor, Nat.pow_succ, Nat.mul_two]

/-- Bits that differ from the ones before them as the bits of `x` say are the parities. -/
theorem getLsbD_of_shiftXor_one {r x : BitVec w} (h : shiftXor 1 r = x) {i : ℕ} (hi : i < w) :
    r.getLsbD i = parity x.getLsbD (i + 1) := by
  have hbit : ∀ j < w, x.getLsbD j = (r.getLsbD j ^^ (r <<< 1).getLsbD j) := by
    intro j _
    rw [← h, shiftXor, BitVec.getLsbD_xor]
  induction i with
  | zero => simp [parity, hbit 0 hi]
  | succ i ih =>
    have hshift : (r <<< 1).getLsbD (i + 1) = r.getLsbD i := by
      rw [BitVec.getLsbD_shiftLeft, Nat.add_sub_cancel]
      simp [show ¬ i + 1 < 1 by omega, hi]
    rw [parity, ← ih (by omega), hbit (i + 1) hi, hshift, Bool.xor_comm (r.getLsbD (i + 1)),
      ← Bool.xor_assoc, Bool.xor_self, Bool.false_xor]

/-- **Shifts that double give the parity up to each bit.** -/
theorem getLsbD_prefixXor {k : ℕ} (hk : w ≤ 2 ^ k) (x : BitVec w) {i : ℕ} (hi : i < w) :
    (prefixXor k x).getLsbD i = parity x.getLsbD (i + 1) := by
  apply getLsbD_of_shiftXor_one _ hi
  have hout : x <<< 2 ^ k = 0#w := BitVec.shiftLeft_eq_zero hk
  rw [shiftXor_one_prefixXor, shiftXor, hout, BitVec.xor_zero]

/-- The low half of a product without carries. -/
def clmul (a b : BitVec w) : BitVec w :=
  (List.range w).foldl (fun acc i => if a.getLsbD i then acc ^^^ b <<< i else acc) 0

/-- **So does one product without carries**, by ones only. -/
theorem getLsbD_clmul_allOnes (a : BitVec w) {j : ℕ} (hj : j < w) :
    (clmul a (BitVec.allOnes w)).getLsbD j = parity a.getLsbD (j + 1) := by
  have hones : ∀ n, (BitVec.allOnes w <<< n).getLsbD j = decide (n ≤ j) := by
    intro n
    rw [BitVec.getLsbD_shiftLeft, BitVec.getLsbD_allOnes]
    rcases Nat.lt_or_ge j n with hlt | hge
    · simp [hlt]
    · simp [hge, Nat.not_lt.mpr hge, hj, show j - n < w by omega]
  -- after `n` steps the parity goes up to `n`, or to `j`
  have hsteps : ∀ n, ((List.range n).foldl
      (fun acc i => if a.getLsbD i then acc ^^^ BitVec.allOnes w <<< i else acc) 0).getLsbD j =
        parity a.getLsbD (min n (j + 1)) := by
    intro n
    induction n with
    | zero => exact BitVec.getLsbD_zero
    | succ n ih =>
      rw [List.range_succ, List.foldl_append, List.foldl_cons, List.foldl_nil, apply_ite
        (BitVec.getLsbD · j), BitVec.getLsbD_xor, hones, ih]
      rcases Nat.lt_or_ge j n with hlt | hge
      · rw [Nat.min_eq_right (by omega), Nat.min_eq_right (by omega)]
        simp [Nat.not_le.mpr hlt]
      · rw [Nat.min_eq_left (by omega), Nat.min_eq_left (by omega), parity_succ]
        cases a.getLsbD n <;> simp [hge]
  rw [clmul, hsteps, Nat.min_eq_right (by omega)]

/-! ## Runs -/

/-- What follows an escape, where `p` says what may be one: an escape is none if it follows one. -/
def escapedAt (p : ℕ → Bool) : ℕ → Bool
  | 0 => false
  | n + 1 => p n && !escapedAt p n

@[simp] theorem escapedAt_zero (p : ℕ → Bool) : escapedAt p 0 = false := rfl

theorem escapedAt_succ (p : ℕ → Bool) (n : ℕ) :
    escapedAt p (n + 1) = (p n && !escapedAt p n) := rfl

/-- `((p << 1) | odd) - p ^ odd`. -/
def escapeCode (odd p : BitVec w) : BitVec w := (p <<< 1 ||| odd) - p ^^^ odd

/-- The character before the one at `i` may be an escape. -/
def precededBy (p : ℕ → Bool) : ℕ → Bool
  | 0 => false
  | i + 1 => p i

theorem precededBy_of_escapedAt {p : ℕ → Bool} {i : ℕ} (h : escapedAt p i = true) :
    precededBy p i = true := by
  cases i with
  | zero => simp at h
  | succ i =>
    rw [escapedAt_succ, Bool.and_eq_true] at h
    exact h.1

theorem getLsbD_shiftLeft_one (p : BitVec w) {i : ℕ} (hi : i < w) :
    (p <<< 1).getLsbD i = precededBy p.getLsbD i := by
  rw [BitVec.getLsbD_shiftLeft]
  cases i with
  | zero => simp [precededBy]
  | succ i => simp [precededBy, hi, show i < w by omega]

/-- What is borrowed from a bit: at an odd place an escape, at an even one what may have been an
escape before it and was none. -/
theorem carry_escapeCode {odd p : BitVec w} (hodd : ∀ i < w, odd.getLsbD i = decide (i % 2 = 1))
    {i : ℕ} (hi : i < w) :
    BitVec.carry i ((p <<< 1 ||| odd) - p) p false =
      if i % 2 = 1 then escapedAt p.getLsbD i
      else precededBy p.getLsbD i && !escapedAt p.getLsbD i := by
  induction i with
  | zero => simp [precededBy]
  | succ i ih =>
    have hi' : i < w := by omega
    have hsum := BitVec.getLsbD_add hi' ((p <<< 1 ||| odd) - p) p
    rw [BitVec.sub_add_cancel, BitVec.getLsbD_or, getLsbD_shiftLeft_one p hi', hodd i hi',
      ih hi'] at hsum
    rw [BitVec.carry_succ, ih hi', escapedAt_succ, precededBy]
    have hpreceded := @precededBy_of_escapedAt p.getLsbD i
    generalize ((p <<< 1 ||| odd) - p).getLsbD i = d at hsum ⊢
    generalize p.getLsbD i = b at hsum ⊢
    generalize escapedAt p.getLsbD i = e at hsum hpreceded ⊢
    generalize precededBy p.getLsbD i = c at hsum hpreceded ⊢
    -- eight cases, at an even and at an odd place
    rcases Nat.mod_two_eq_zero_or_one i with heven | hodd'
    · have hnext : (i + 1) % 2 = 1 := by omega
      simp only [heven, hnext] at hsum ⊢
      revert hsum hpreceded
      revert b c d e
      decide
    · have hnext : (i + 1) % 2 = 0 := by omega
      simp only [hodd', hnext] at hsum ⊢
      revert hsum hpreceded
      revert b c d e
      decide

/-- **The difference marks every second bit of a run**, and what follows the last of them. -/
theorem getLsbD_escapeCode {odd : BitVec w} (hodd : ∀ i < w, odd.getLsbD i = decide (i % 2 = 1))
    (p : BitVec w) {i : ℕ} (hi : i < w) :
    (escapeCode odd p).getLsbD i = (escapedAt p.getLsbD i ^^ p.getLsbD i) := by
  have hsum := BitVec.getLsbD_add hi ((p <<< 1 ||| odd) - p) p
  rw [BitVec.sub_add_cancel, BitVec.getLsbD_or, getLsbD_shiftLeft_one p hi, hodd i hi,
    carry_escapeCode hodd hi] at hsum
  rw [escapeCode, BitVec.getLsbD_xor, hodd i hi]
  have hpreceded := @precededBy_of_escapedAt p.getLsbD i
  generalize ((p <<< 1 ||| odd) - p).getLsbD i = d at hsum ⊢
  generalize p.getLsbD i = b at hsum ⊢
  generalize escapedAt p.getLsbD i = e at hsum hpreceded ⊢
  generalize precededBy p.getLsbD i = c at hsum hpreceded
  rcases Nat.mod_two_eq_zero_or_one i with heven | hodd'
  · simp only [heven] at hsum ⊢
    revert hsum hpreceded
    revert b c d e
    decide
  · simp only [hodd'] at hsum ⊢
    revert hsum hpreceded
    revert b c d e
    decide

/-! ## Places -/

/-- The places of all bits, lowest first. -/
def setBits (x : BitVec w) : List ℕ := (List.range w).filter x.getLsbD

/-- How many zeros there are below the lowest bit. -/
def trailingZeroes (x : BitVec w) : ℕ := ((List.range w).takeWhile fun i => !x.getLsbD i).length

/-- `x & (x - 1)`. -/
def clearLowestBit (x : BitVec w) : BitVec w := x &&& (x - 1#w)

theorem mem_setBits {x : BitVec w} {i : ℕ} : i ∈ setBits x ↔ x.getLsbD i = true := by
  rw [setBits, List.mem_filter, List.mem_range]
  constructor
  · exact fun h => h.2
  · exact fun h => ⟨BitVec.lt_of_getLsbD h, h⟩

/-- Subtracting one flips every bit up to the lowest one that is set. -/
theorem getLsbD_sub_one (x : BitVec w) {i : ℕ} (hi : i < w) :
    (x - 1#w).getLsbD i = (x.getLsbD i ^^ !((List.range i).any x.getLsbD)) := by
  have hcarry : ∀ j ≤ i, BitVec.carry j x (BitVec.allOnes w) false =
      (List.range j).any x.getLsbD := by
    intro j hj
    induction j with
    | zero => simp
    | succ j ih =>
      rw [BitVec.carry_succ, ih (by omega), BitVec.getLsbD_allOnes, List.range_succ,
        List.any_append, List.any_cons, List.any_nil, decide_eq_true (show j < w by omega)]
      cases x.getLsbD j <;> cases (List.range j).any x.getLsbD <;> rfl
  have hsub : x - 1#w = x + BitVec.allOnes w := by
    rw [BitVec.sub_eq_add_neg, BitVec.neg_one_eq_allOnes]
  rw [hsub, BitVec.getLsbD_add hi, hcarry i (Nat.le_refl i), BitVec.getLsbD_allOnes]
  simp [hi]

/-- A bit stays if there is a lower one. -/
theorem getLsbD_clearLowestBit (x : BitVec w) {i : ℕ} (hi : i < w) :
    (clearLowestBit x).getLsbD i = (x.getLsbD i && (List.range i).any x.getLsbD) := by
  rw [clearLowestBit, BitVec.getLsbD_and, getLsbD_sub_one x hi]
  cases x.getLsbD i <;> simp

theorem setBits_pairwise (x : BitVec w) : (setBits x).Pairwise (· < ·) :=
  List.pairwise_lt_range.filter _

/-- The zeros end at the first place. -/
theorem trailingZeroes_of_setBits_eq_cons {x : BitVec w} {i : ℕ} {l : List ℕ}
    (h : setBits x = i :: l) : trailingZeroes x = i := by
  have hmem : x.getLsbD i = true := by
    apply mem_setBits.mp
    rw [h]
    exact List.mem_cons_self
  have hi : i < w := BitVec.lt_of_getLsbD hmem
  have hbelow : ∀ j < i, x.getLsbD j = false := by
    intro j hj
    by_contra hbit
    have hplace : j ∈ setBits x := mem_setBits.mpr (by simpa using hbit)
    have hsorted := setBits_pairwise x
    rw [h] at hplace hsorted
    rcases List.mem_cons.mp hplace with rfl | hrest
    · omega
    · have hlt := (List.pairwise_cons.mp hsorted).1 j hrest
      omega
  have hrange : List.range w = List.range i ++ i :: (List.range (w - i - 1)).map (i + 1 + ·) := by
    have hw : w = i + (1 + (w - i - 1)) := by omega
    conv_lhs => rw [hw, List.range_add, List.range_add]
    simp [Function.comp_def, Nat.add_assoc]
  rw [trailingZeroes, hrange, List.takeWhile_append_of_pos, List.takeWhile_cons_of_neg]
  · simp
  · simp [hmem]
  · intro j hj
    simp [hbelow j (List.mem_range.mp hj)]

/-- **Clearing the lowest bit takes its place from the list.** -/
theorem setBits_clearLowestBit (x : BitVec w) : setBits (clearLowestBit x) = (setBits x).tail := by
  have hrange : ∀ n ≤ w, (List.range n).filter (clearLowestBit x).getLsbD =
      ((List.range n).filter x.getLsbD).tail := by
    intro n
    induction n with
    | zero => simp
    | succ n ih =>
      intro hn
      rw [List.range_succ, List.filter_append, List.filter_append, ih (by omega)]
      have hlast := getLsbD_clearLowestBit x (show n < w by omega)
      have hany : (List.range n).any x.getLsbD = !((List.range n).filter x.getLsbD).isEmpty := by
        rw [Bool.eq_iff_iff]
        simp [List.filter_eq_nil_iff]
      rw [hany] at hlast
      cases hfirst : (List.range n).filter x.getLsbD with
      | nil =>
        -- the new place would be the first
        rw [hfirst] at hlast
        cases hbit : x.getLsbD n <;> simp [hlast, hbit]
      | cons i l =>
        rw [hfirst] at hlast
        cases hbit : x.getLsbD n <;> simp [hlast, hbit]
  exact hrange w (Nat.le_refl w)

/-- How many bits are set. -/
def countOnes (x : BitVec w) : ℕ := (List.range w).countP x.getLsbD

theorem length_setBits (x : BitVec w) : (setBits x).length = countOnes x :=
  List.countP_eq_length_filter.symm

theorem setBits_eq_nil_iff {x : BitVec w} : setBits x = [] ↔ x = 0#w := by
  constructor
  · intro h
    apply BitVec.eq_of_getLsbD_eq
    intro i hi
    have hmem : i ∉ setBits x := by simp [h]
    rw [mem_setBits] at hmem
    simpa using hmem
  · rintro rfl
    simp [setBits]

theorem length_setBits_le (x : BitVec w) : (setBits x).length ≤ w := by
  have hle := List.length_filter_le x.getLsbD (List.range w)
  rwa [List.length_range] at hle

/-! ## From the other end -/

/-- How many zeros there are above the highest bit. -/
def leadingZeroes (x : BitVec w) : ℕ := ((List.range w).takeWhile fun i => !x.getMsbD i).length

/-- `x ^ (0x80… >> n)`. -/
def zeroLeadingBit (x : BitVec w) (n : ℕ) : BitVec w := x ^^^ (BitVec.twoPow w (w - 1)) >>> n

theorem leadingZeroes_reverse (x : BitVec w) : leadingZeroes x.reverse = trailingZeroes x := by
  simp only [leadingZeroes, trailingZeroes, BitVec.getMsbD_reverse]

/-- **The highest bit of the reverse is the lowest one**, for clearing as for finding it. -/
theorem zeroLeadingBit_reverse {x : BitVec w} {i : ℕ} {l : List ℕ} (h : setBits x = i :: l) :
    zeroLeadingBit x.reverse i = (clearLowestBit x).reverse := by
  have hset : x.getLsbD i = true := by
    apply mem_setBits.mp
    rw [h]
    exact List.mem_cons_self
  have hi : i < w := BitVec.lt_of_getLsbD hset
  have hlowest : ∀ m, x.getLsbD m = true → m = i ∨ i < m := by
    intro m hm
    have hmem := mem_setBits.mpr hm
    have hsorted := setBits_pairwise x
    rw [h] at hmem hsorted
    rcases List.mem_cons.mp hmem with rfl | hmem
    · exact .inl rfl
    · exact .inr ((List.pairwise_cons.mp hsorted).1 m hmem)
  apply BitVec.eq_of_getLsbD_eq
  intro j hj
  have hm : w - 1 - j < w := by omega
  have hplace : i + j = w - 1 ↔ w - 1 - j = i := by omega
  rw [zeroLeadingBit, BitVec.getLsbD_xor, BitVec.getLsbD_reverse, BitVec.getLsbD_reverse,
    BitVec.getMsbD_eq_getLsbD, BitVec.getMsbD_eq_getLsbD, getLsbD_clearLowestBit x hm,
    BitVec.getLsbD_ushiftRight, BitVec.getLsbD_twoPow, decide_eq_true hj,
    decide_eq_true (show w - 1 < w by omega)]
  simp only [Bool.true_and, eq_comm (a := w - 1) (b := i + j), hplace]
  generalize w - 1 - j = m at *
  by_cases hmi : m = i
  · subst hmi
    have hnone : (List.range m).any x.getLsbD = false := by
      rw [List.any_eq_false]
      intro k hk hbit
      have hkm := List.mem_range.mp hk
      rcases hlowest k hbit with rfl | hlt <;> omega
    rw [hset, hnone]
    simp
  · cases hbit : x.getLsbD m with
    | false => simp [hmi]
    | true =>
      have him : i < m := (hlowest m hbit).resolve_left hmi
      have hany : (List.range m).any x.getLsbD = true :=
        List.any_eq_true.mpr ⟨i, List.mem_range.mpr him, hset⟩
      rw [hany]
      simp [hmi]

end Foundations
