import Mathlib.Data.Int.Notation
import Mathlib.Tactic.Common

/-!
# Brackets

Tokens that open something weigh 1 and tokens that close something -1.  `depth` is how much of a
text is open at its end.  A text is `Nested` if it closes what it opens and nothing else.

- `Nested.append`, `Nested.enclose` — the texts that are;
- `Nested.depth_pos_of_isPrefix` — a part of a bracketed text leaves something open.
-/

namespace Foundations

variable {α : Type*} {weight : α → ℤ}

/-- How much is open at the end of a text. -/
def depth (weight : α → ℤ) : List α → ℤ
  | [] => 0
  | a :: text => weight a + depth weight text

@[simp] theorem depth_nil : depth weight [] = 0 := rfl

@[simp] theorem depth_cons (a : α) (text : List α) :
    depth weight (a :: text) = weight a + depth weight text := rfl

@[simp] theorem depth_append (text text' : List α) :
    depth weight (text ++ text') = depth weight text + depth weight text' := by
  induction text with
  | nil => rw [List.nil_append, depth_nil, Int.zero_add]
  | cons a text ih => rw [List.cons_append, depth_cons, depth_cons, ih, Int.add_assoc]

/-- From a token on. -/
theorem depth_drop {text : List α} {i : ℕ} (hi : i < text.length) :
    weight text[i] + depth weight (text.drop (i + 1)) = depth weight (text.drop i) := by
  rw [← depth_cons, List.getElem_cons_drop]

/-- Two kinds of brackets, counted together. -/
theorem depth_add (weight' : α → ℤ) (text : List α) :
    depth (fun a => weight a + weight' a) text = depth weight text + depth weight' text := by
  induction text with
  | nil => rfl
  | cons a text ih =>
    simp only [depth_cons, ih]
    omega

/-- Everything is closed at the end, and nothing is closed that was not opened. -/
structure Nested (weight : α → ℤ) (text : List α) : Prop where
  depth_eq_zero : depth weight text = 0
  depth_nonneg : ∀ part, part <+: text → 0 ≤ depth weight part

namespace Nested

variable {text text' : List α}

theorem nil : Nested weight [] where
  depth_eq_zero := rfl
  depth_nonneg part hpart := by
    rw [List.prefix_nil.mp hpart]
    exact Int.le_refl 0

/-- A token that is no bracket. -/
theorem single {a : α} (ha : weight a = 0) : Nested weight [a] where
  depth_eq_zero := by rw [depth_cons, ha, depth_nil, Int.add_zero]
  depth_nonneg part hpart := by
    rcases List.prefix_cons_iff.mp hpart with rfl | ⟨rest, rfl, hrest⟩
    · exact Int.le_refl 0
    · rw [List.prefix_nil.mp hrest, depth_cons, ha]
      exact Int.le_refl 0

theorem append (h : Nested weight text) (h' : Nested weight text') :
    Nested weight (text ++ text') where
  depth_eq_zero := by rw [depth_append, h.depth_eq_zero, h'.depth_eq_zero, Int.add_zero]
  depth_nonneg part hpart := by
    rcases List.prefix_or_prefix_of_prefix hpart (List.prefix_append text text') with
      hfirst | ⟨rest, rfl⟩
    · exact h.depth_nonneg part hfirst
    · rw [depth_append, h.depth_eq_zero, Int.zero_add]
      exact h'.depth_nonneg rest ((List.prefix_append_right_inj text).mp hpart)

variable {a b : α}

/-- **What is cut off in brackets has something open.** -/
theorem depth_pos_of_isPrefix (h : Nested weight text) (ha : weight a = 1) {part : List α}
    (hpart : part <+: a :: text ++ [b]) (hne : part ≠ []) (hproper : part ≠ a :: text ++ [b]) :
    0 < depth weight part := by
  rw [List.prefix_concat_iff] at hpart
  rcases List.prefix_cons_iff.mp (hpart.resolve_left hproper) with rfl | ⟨rest, rfl, hrest⟩
  · exact absurd rfl hne
  · rw [depth_cons, ha]
    have hnonneg := h.depth_nonneg rest hrest
    omega

/-- **A text in brackets.** -/
theorem enclose (h : Nested weight text) (ha : weight a = 1) (hb : weight b = -1) :
    Nested weight (a :: text ++ [b]) where
  depth_eq_zero := by
    rw [depth_append, depth_cons, depth_cons, ha, hb, h.depth_eq_zero, depth_nil]
    rfl
  depth_nonneg part hpart := by
    by_cases hproper : part = a :: text ++ [b]
    · rw [hproper, depth_append, depth_cons, depth_cons, ha, hb, h.depth_eq_zero, depth_nil]
      decide
    · by_cases hne : part = []
      · rw [hne]
        exact Int.le_refl 0
      · exact Int.le_of_lt (h.depth_pos_of_isPrefix ha hpart hne hproper)

end Nested

end Foundations
