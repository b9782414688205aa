import Dataprint.Foundations.Smallest
import Mathlib.Algebra.Order.Field.Rat
import Mathlib.Tactic.FieldSimp
import Mathlib.Tactic.LinearCombination
import Mathlib.Tactic.Ring

/-!
# Similarity of Finite Sets

The Jaccard index of two finite sets, and its *bottom-k* estimate: the share of common
elements among the `k` smallest elements of the union.

- `jaccardIndex_eq_one_iff` — the index is one exactly on equal sets;
- `card_inter_div_eq_jaccardIndex_iff`, `card_inter_div_ne_one` — what dividing the number of
  common elements by the sum of the sizes gives instead;
- `kmvEstimate_eq_shared_iff` — counting all common elements gives the estimate exactly if
  all of them are among the `k` smallest of the union;
- `kmvEstimate_eq_jaccardIndex_iff` — the index itself is the estimate exactly if the rest
  of the union has the same share of common elements.
-/

namespace Foundations

variable {α : Type*} [LinearOrder α]

/-- `|s ∩ t| / |s ∪ t|` -/
def jaccardIndex (s t : Finset α) : ℚ := (s ∩ t).card / (s ∪ t).card

/-- `|L ∩ s ∩ t| / k` for the `k` smallest elements `L` of the union. -/
def kmvEstimate (k : ℕ) (s t : Finset α) : ℚ := (smallest k (s ∪ t) ∩ (s ∩ t)).card / k

/-- The size of the union, as the code computes it. -/
theorem card_union_eq (s t : Finset α) :
    ((s ∪ t).card : ℚ) = s.card + t.card - (s ∩ t).card := by
  have h := Finset.card_union_add_card_inter s t
  rw [eq_sub_iff_add_eq]
  exact_mod_cast h

/-- **Separation**: the index is one exactly on equal sets. -/
theorem jaccardIndex_eq_one_iff {s t : Finset α} (h : (s ∪ t).Nonempty) :
    jaccardIndex s t = 1 ↔ s = t := by
  have hpos : ((s ∪ t).card : ℚ) ≠ 0 := by exact_mod_cast (Finset.card_pos.mpr h).ne'
  rw [jaccardIndex, div_eq_one_iff_eq hpos, Nat.cast_inj]
  constructor
  · intro hcard
    have hsub : s ∩ t ⊆ s ∪ t := Finset.inter_subset_union
    have heq := Finset.eq_of_subset_of_card_le hsub hcard.ge
    -- both sets lie between the intersection and the union
    apply Finset.Subset.antisymm
    · calc s ⊆ s ∪ t := Finset.subset_union_left
        _ = s ∩ t := heq.symm
        _ ⊆ t := Finset.inter_subset_right
    · calc t ⊆ s ∪ t := Finset.subset_union_right
        _ = s ∩ t := heq.symm
        _ ⊆ s := Finset.inter_subset_left
  · rintro rfl
    rw [Finset.inter_self, Finset.union_self]

/-! ## Relabelling -/

section Relabelling

variable {β : Type*} [LinearOrder β] {f : β → α} {s t : Finset β}

theorem card_inter_image (hf : Set.InjOn f (s ∪ t : Finset β)) :
    (s.image f ∩ t.image f).card = (s ∩ t).card := by
  rw [← Finset.image_inter_of_injOn _ _ (by rwa [Finset.coe_union] at hf)]
  exact Finset.card_image_of_injOn (hf.mono (Finset.coe_subset.mpr Finset.inter_subset_union))

theorem card_union_image (hf : Set.InjOn f (s ∪ t : Finset β)) :
    (s.image f ∪ t.image f).card = (s ∪ t).card := by
  rw [← Finset.image_union]
  exact Finset.card_image_of_injOn hf

/-- A relabelling that keeps the elements apart keeps the index. -/
theorem jaccardIndex_image (hf : Set.InjOn f (s ∪ t : Finset β)) :
    jaccardIndex (s.image f) (t.image f) = jaccardIndex s t := by
  rw [jaccardIndex, jaccardIndex, card_inter_image hf, card_union_image hf]

end Relabelling

/-! ## Dividing the common elements by a number -/

/-- Divided by the sum of the sizes, the common elements give the index only if there are none. -/
theorem card_inter_div_eq_jaccardIndex_iff {s t : Finset α} (h : (s ∪ t).Nonempty) :
    ((s ∩ t).card : ℚ) / (s.card + t.card : ℕ) = jaccardIndex s t ↔ ¬ (s ∩ t).Nonempty := by
  have hsum := Finset.card_union_add_card_inter s t
  have hpos := Finset.card_pos.mpr h
  have hunion : ((s ∪ t).card : ℚ) ≠ 0 := by exact_mod_cast hpos.ne'
  have hsizes : ((s.card + t.card : ℕ) : ℚ) ≠ 0 := by
    have hne : s.card + t.card ≠ 0 := by omega
    exact_mod_cast hne
  rw [Finset.not_nonempty_iff_eq_empty, ← Finset.card_eq_zero]
  constructor
  · intro heq
    rw [jaccardIndex, div_eq_div_iff hsizes hunion] at heq
    have hnat : (s ∩ t).card * (s ∪ t).card = (s ∩ t).card * (s.card + t.card) := by
      exact_mod_cast heq
    -- common elements would make both denominators equal
    by_contra hne
    have hcard := Nat.eq_of_mul_eq_mul_left (Nat.pos_of_ne_zero hne) hnat
    omega
  · intro hzero
    simp [jaccardIndex, hzero]

/-- Divided by the sum of the sizes, the common elements never give one. -/
theorem card_inter_div_ne_one {s t : Finset α} (h : (s ∪ t).Nonempty) :
    ((s ∩ t).card : ℚ) / (s.card + t.card : ℕ) ≠ 1 := by
  have hsum := Finset.card_union_add_card_inter s t
  have hpos := Finset.card_pos.mpr h
  have hsub : (s ∩ t).card ≤ (s ∪ t).card := Finset.card_le_card Finset.inter_subset_union
  have hsizes : ((s.card + t.card : ℕ) : ℚ) ≠ 0 := by
    have hne : s.card + t.card ≠ 0 := by omega
    exact_mod_cast hne
  rw [ne_eq, div_eq_one_iff_eq hsizes, Nat.cast_inj]
  omega

/-- Divided by the size of both sets, the common elements give one exactly on equal sets. -/
theorem card_inter_div_eq_one_iff {k : ℕ} (hk : 0 < k) {s t : Finset α} (hs : s.card = k)
    (ht : t.card = k) : ((s ∩ t).card : ℚ) / k = 1 ↔ s = t := by
  have hk' : (k : ℚ) ≠ 0 := by exact_mod_cast hk.ne'
  rw [div_eq_one_iff_eq hk', Nat.cast_inj]
  constructor
  · intro hcard
    have hleft : s ∩ t = s :=
      Finset.eq_of_subset_of_card_le Finset.inter_subset_left (by rw [hcard, hs])
    have hright : s ∩ t = t :=
      Finset.eq_of_subset_of_card_le Finset.inter_subset_right (by rw [hcard, ht])
    exact hleft.symm.trans hright
  · rintro rfl
    rw [Finset.inter_self, hs]

/-! ## The bottom-`k` estimate -/

/-- The common elements, among the `k` smallest of the union and beyond. -/
theorem card_common_split (k : ℕ) (s t : Finset α) :
    (smallest k (s ∪ t) ∩ (s ∩ t)).card + ((s ∩ t) \ smallest k (s ∪ t)).card = (s ∩ t).card := by
  rw [Finset.inter_comm]
  exact Finset.card_inter_add_card_sdiff _ _

/-- All common elements count for the estimate exactly if none lies beyond the `k` smallest. -/
theorem kmvEstimate_eq_shared_iff {k : ℕ} (hk : 0 < k) (s t : Finset α) :
    ((s ∩ t).card : ℚ) / k = kmvEstimate k s t ↔ s ∩ t ⊆ smallest k (s ∪ t) := by
  have hk' : (k : ℚ) ≠ 0 := by exact_mod_cast hk.ne'
  have hsplit := card_common_split k s t
  rw [kmvEstimate, div_left_inj' hk', Nat.cast_inj, ← Finset.sdiff_eq_empty_iff_subset,
    ← Finset.card_eq_zero]
  omega

/-- **Proportionality**: on a union of at least `k` elements, the index is the estimate exactly if
the elements beyond the `k` smallest have the same share of common elements as the union. -/
theorem kmvEstimate_eq_jaccardIndex_iff {k : ℕ} (hk : 0 < k) {s t : Finset α}
    (hcard : k ≤ (s ∪ t).card) :
    jaccardIndex s t = kmvEstimate k s t ↔
      ((s ∩ t) \ smallest k (s ∪ t)).card * (s ∪ t).card =
        (s ∩ t).card * ((s ∪ t) \ smallest k (s ∪ t)).card := by
  have hk' : (k : ℚ) ≠ 0 := by exact_mod_cast hk.ne'
  have hpos : ((s ∪ t).card : ℚ) ≠ 0 := by
    have hne : (s ∪ t).card ≠ 0 := by omega
    exact_mod_cast hne
  have hcommon : ((smallest k (s ∪ t) ∩ (s ∩ t)).card : ℚ) =
      (s ∩ t).card - ((s ∩ t) \ smallest k (s ∪ t)).card := by
    rw [eq_sub_iff_add_eq]
    exact_mod_cast card_common_split k s t
  have hrest : (((s ∪ t) \ smallest k (s ∪ t)).card : ℚ) = (s ∪ t).card - k := by
    have hsub := Finset.card_sdiff_add_card_eq_card (smallest_subset k (s ∪ t))
    rw [card_smallest_of_le hcard] at hsub
    rw [eq_sub_iff_add_eq]
    exact_mod_cast hsub
  rw [jaccardIndex, kmvEstimate, div_eq_div_iff hpos hk', hcommon, ← @Nat.cast_inj ℚ,
    Nat.cast_mul, Nat.cast_mul, hrest]
  constructor <;> intro h <;> linear_combination h

/-- The index is the estimate only if the size of the union, but for what it has in common with `k`,
divides the number of common elements. -/
theorem dvd_card_inter_of_jaccardIndex_eq {k : ℕ} (hk : 0 < k) {s t : Finset α}
    (hcard : k ≤ (s ∪ t).card) (h : jaccardIndex s t = kmvEstimate k s t) :
    (s ∪ t).card / (s ∪ t).card.gcd k ∣ (s ∩ t).card := by
  have hk' : (k : ℚ) ≠ 0 := by exact_mod_cast hk.ne'
  have hpos : ((s ∪ t).card : ℚ) ≠ 0 := by
    have hne : (s ∪ t).card ≠ 0 := by omega
    exact_mod_cast hne
  rw [jaccardIndex, kmvEstimate, div_eq_div_iff hpos hk'] at h
  have hmul : (s ∩ t).card * k = (smallest k (s ∪ t) ∩ (s ∩ t)).card * (s ∪ t).card := by
    exact_mod_cast h
  have hdvd : (s ∪ t).card ∣ (s ∩ t).card * k := by
    rw [hmul]
    exact Nat.dvd_mul_left _ _
  -- without the common factor the size and `k` are coprime
  have hquot := Nat.div_dvd_div (Nat.gcd_dvd_left (s ∪ t).card k) hdvd
  rw [Nat.mul_div_assoc _ (Nat.gcd_dvd_right _ _)] at hquot
  exact (Nat.coprime_div_gcd_div_gcd (Nat.gcd_pos_of_pos_right _ hk)).dvd_of_dvd_mul_right hquot

end Foundations
