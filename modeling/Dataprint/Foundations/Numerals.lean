import Mathlib.Tactic.Common
import Mathlib.Data.Nat.Notation

/-!
# Numerals

`Nat.toDigits b n` is the numeral of `n` in base `b`, the highest digit first.

- `readNumeral_toDigits` — a reader that knows the digits reads it back;
- `exists_digit_of_mem_toDigits` and `head?_toDigits_eq_zero_iff` — its characters are digits of the
  base, and the first one is not zero unless the number is.
-/

namespace Foundations

variable {b : ℕ} {digit : Char → Option ℕ}

/-- Reads digits behind those that have the value `n`. -/
def readDigits (digit : Char → Option ℕ) (b n : ℕ) (text : List Char) : Option ℕ :=
  text.foldlM (fun n c => (digit c).map (b * n + ·)) n

/-- The value of a numeral.  The empty text is none. -/
def readNumeral (digit : Char → Option ℕ) (b : ℕ) (text : List Char) : Option ℕ :=
  if text = [] then none else readDigits digit b 0 text

theorem readDigits_append (n : ℕ) (text text' : List Char) :
    readDigits digit b n (text ++ text') =
      (readDigits digit b n text).bind fun m => readDigits digit b m text' :=
  List.foldlM_append

theorem readDigits_single {d : ℕ} (hd : digit d.digitChar = some d) (n : ℕ) :
    readDigits digit b n [d.digitChar] = some (b * n + d) := by
  simp [readDigits, hd]

theorem readDigits_toDigits (hb : 1 < b) (hdigit : ∀ d < b, digit d.digitChar = some d) (n : ℕ) :
    readDigits digit b 0 (Nat.toDigits b n) = some n := by
  induction n using Nat.strongRecOn with
  | ind n ih =>
    rw [Nat.toDigits_eq_if hb]
    split
    case isTrue hlt =>
      rw [readDigits_single (hdigit n hlt), Nat.mul_zero, Nat.zero_add]
    case isFalse hge =>
      -- the last digit is behind the numeral of the quotient
      have hdiv : n / b < n := Nat.div_lt_self (by omega) hb
      have hmod : n % b < b := Nat.mod_lt n (by omega)
      rw [readDigits_append, ih (n / b) hdiv, Option.bind_some, readDigits_single (hdigit _ hmod),
        Nat.div_add_mod]

/-- **Reading back**: a numeral is read as its number. -/
theorem readNumeral_toDigits (hb : 1 < b) (hdigit : ∀ d < b, digit d.digitChar = some d) (n : ℕ) :
    readNumeral digit b (Nat.toDigits b n) = some n := by
  rw [readNumeral, if_neg Nat.toDigits_ne_nil]
  exact readDigits_toDigits hb hdigit n

/-- The characters of a numeral are digits of the base. -/
theorem exists_digit_of_mem_toDigits (hb : 1 < b) {n : ℕ} {c : Char} (hc : c ∈ Nat.toDigits b n) :
    ∃ d < b, c = d.digitChar := by
  induction n using Nat.strongRecOn with
  | ind n ih =>
    rw [Nat.toDigits_eq_if hb] at hc
    split at hc
    case isTrue hlt => exact ⟨n, hlt, List.mem_singleton.mp hc⟩
    case isFalse hge =>
      rcases List.mem_append.mp hc with hc | hc
      · exact ih (n / b) (Nat.div_lt_self (by omega) hb) hc
      · exact ⟨n % b, Nat.mod_lt n (by omega), List.mem_singleton.mp hc⟩

/-- **No leading zeros**: only the numeral of zero starts with a zero. -/
theorem head?_toDigits_eq_zero_iff (hb : 1 < b) {n : ℕ} :
    (Nat.toDigits b n).head? = some '0' ↔ n = 0 := by
  induction n using Nat.strongRecOn with
  | ind n ih =>
    rw [Nat.toDigits_eq_if hb]
    split
    case isTrue hlt =>
      rw [List.head?_cons, Option.some.injEq]
      exact Nat.digitChar_eq_zero
    case isFalse hge =>
      have hdiv : n / b ≠ 0 := Nat.ne_of_gt (Nat.div_pos (Nat.le_of_not_lt hge) (by omega))
      have hhead := ih (n / b) (Nat.div_lt_self (by omega) hb)
      -- the first character is that of the quotient
      obtain ⟨c, cs, hcs⟩ := List.exists_cons_of_ne_nil (Nat.toDigits_ne_nil (b := b) (n := n / b))
      rw [hcs, List.head?_cons] at hhead
      rw [hcs, List.cons_append, List.head?_cons, hhead]
      exact iff_of_false hdiv (by omega)

end Foundations
