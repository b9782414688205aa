import Mathlib.Data.Finset.Max
import Mathlib.Order.Interval.Finset.Nat
import Mathlib.Tactic.Common

/-!
# The `k` Smallest Elements of a Finite Set

`smallest k s` keeps the elements of `s` that fewer than `k` elements of `s` lie
strictly below.  It is the *bottom-k* sample of `s`.

- `card_smallest` — it has `min k |s|` elements;
- `lt_of_mem_smallest` — each of them lies below every element left out;
- `eq_smallest` — these facts determine it;
- `smallest_eq_of_between` — any set between `smallest k s` and `s` has the same
  `k` smallest elements.  The merge law `smallest_union` and the one-element
  law `smallest_insert` are instances of it.
-/

namespace Foundations

variable {α : Type*} [LinearOrder α]

/-- The elements of `s` with fewer than `k` elements of `s` strictly below them. -/
def smallest (k : ℕ) (s : Finset α) : Finset α :=
  s.filter fun x => (s.filter (· < x)).card < k

@[simp] theorem mem_smallest {k : ℕ} {s : Finset α} {x : α} :
    x ∈ smallest k s ↔ x ∈ s ∧ (s.filter (· < x)).card < k := by
  simp [smallest]

theorem smallest_subset (k : ℕ) (s : Finset α) : smallest k s ⊆ s :=
  Finset.filter_subset _ _

@[simp] theorem smallest_empty (k : ℕ) : smallest k (∅ : Finset α) = ∅ := by
  simp [smallest]

/-- Everything below a kept element is kept. -/
theorem smallest_downward {k : ℕ} {s : Finset α} {x y : α} (hx : x ∈ smallest k s)
    (hy : y ∈ s) (hyx : y ≤ x) : y ∈ smallest k s := by
  rw [mem_smallest] at hx ⊢
  refine ⟨hy, lt_of_le_of_lt (Finset.card_le_card ?_) hx.2⟩
  intro z hz
  rw [Finset.mem_filter] at hz ⊢
  exact ⟨hz.1, lt_of_lt_of_le hz.2 hyx⟩

theorem lt_of_mem_smallest {k : ℕ} {s : Finset α} {x y : α} (hx : x ∈ smallest k s)
    (hy : y ∈ s) (hny : y ∉ smallest k s) : x < y := by
  by_contra hle
  exact hny (smallest_downward hx hy (not_lt.mp hle))

/-! ## How many elements are kept -/

/-- Adding a new maximum keeps it exactly when there was room. -/
theorem smallest_insert_max {k : ℕ} {s : Finset α} {a : α} (ha : ∀ x ∈ s, x < a) :
    smallest k (insert a s) = if s.card < k then insert a (smallest k s) else smallest k s := by
  have hbelow : (insert a s).filter (· < a) = s := by
    ext x
    simp only [Finset.mem_filter, Finset.mem_insert]
    constructor
    · rintro ⟨rfl | hx, hlt⟩
      · exact absurd hlt (lt_irrefl _)
      · exact hx
    · exact fun hx => ⟨.inr hx, ha x hx⟩
  have hothers : ∀ x ∈ s, (insert a s).filter (· < x) = s.filter (· < x) := by
    intro x hx
    rw [Finset.filter_insert, if_neg (not_lt.mpr (ha x hx).le)]
  have hnew : a ∉ s := fun h => lt_irrefl _ (ha a h)
  ext x
  by_cases hxa : x = a
  · subst hxa
    rw [mem_smallest, hbelow]
    split <;> simp_all
  · rw [mem_smallest]
    by_cases hx : x ∈ s
    · rw [hothers x hx]
      split <;> simp [hx, hxa]
    · split <;> simp [hx, hxa]

theorem card_smallest (k : ℕ) (s : Finset α) : (smallest k s).card = min k s.card := by
  induction s using Finset.induction_on_max with
  | empty => simp
  | insert a s ha ih =>
    have hnew : a ∉ s := fun h => lt_irrefl _ (ha a h)
    have hnew' : a ∉ smallest k s := fun h => hnew (smallest_subset k s h)
    rw [smallest_insert_max ha, Finset.card_insert_of_notMem hnew]
    split
    · rw [Finset.card_insert_of_notMem hnew', ih]; omega
    · rw [ih]; omega

theorem card_smallest_le (k : ℕ) (s : Finset α) : (smallest k s).card ≤ k := by
  rw [card_smallest]
  exact min_le_left _ _

/-- Nothing is left out while there is room. -/
theorem smallest_of_card_le {k : ℕ} {s : Finset α} (h : s.card ≤ k) : smallest k s = s :=
  Finset.eq_of_subset_of_card_le (smallest_subset k s) (by rw [card_smallest]; omega)

/-- Size, inclusion and the order against the rest determine the `k` smallest elements. -/
theorem eq_smallest {k : ℕ} {s t : Finset α} (hsub : t ⊆ s) (hcard : t.card = min k s.card)
    (hlt : ∀ x ∈ t, ∀ y ∈ s, y ∉ t → x < y) : t = smallest k s := by
  refine Finset.eq_of_subset_of_card_le ?_ (by rw [card_smallest, hcard])
  intro x hx
  by_contra hns
  -- a kept element outside `t` would have to lie above `x` and below it
  have hstrict : ¬ smallest k s ⊆ t := by
    intro hst
    have : smallest k s = t :=
      Finset.eq_of_subset_of_card_le hst (by rw [card_smallest, hcard])
    exact hns (this ▸ hx)
  obtain ⟨y, hy, hyt⟩ := Finset.not_subset.mp hstrict
  exact lt_asymm (hlt x hx y (smallest_subset k s hy) hyt)
    (lt_of_mem_smallest hy (hsub hx) hns)

/-! ## Merging -/

/-- **Mergeability**: dropping elements outside the `k` smallest changes nothing. -/
theorem smallest_eq_of_between {k : ℕ} {s t : Finset α} (hlow : smallest k s ⊆ t) (hts : t ⊆ s) :
    smallest k t = smallest k s := by
  symm
  apply eq_smallest hlow
  · rw [card_smallest]
    have h1 := Finset.card_le_card hts
    have h2 := Finset.card_le_card hlow
    rw [card_smallest] at h2
    omega
  · exact fun x hx y hy hny => lt_of_mem_smallest hx (hts hy) hny

theorem smallest_mono_mem {k : ℕ} {s t : Finset α} {x : α} (hst : s ⊆ t)
    (hx : x ∈ smallest k t) (hs : x ∈ s) : x ∈ smallest k s := by
  rw [mem_smallest] at hx ⊢
  exact ⟨hs, lt_of_le_of_lt (Finset.card_le_card (Finset.filter_subset_filter _ hst)) hx.2⟩

/-- The `k` smallest of a union are found among the `k` smallest of both parts. -/
theorem smallest_union (k : ℕ) (s t : Finset α) :
    smallest k (smallest k s ∪ smallest k t) = smallest k (s ∪ t) := by
  apply smallest_eq_of_between
  · intro x hx
    rcases Finset.mem_union.mp (smallest_subset k _ hx) with hs | ht
    · exact Finset.mem_union_left _ (smallest_mono_mem Finset.subset_union_left hx hs)
    · exact Finset.mem_union_right _ (smallest_mono_mem Finset.subset_union_right hx ht)
  · exact Finset.union_subset_union (smallest_subset k s) (smallest_subset k t)

/-- Cutting one side down first makes no difference. -/
theorem smallest_union_left (k : ℕ) (s t : Finset α) :
    smallest k (smallest k s ∪ t) = smallest k (s ∪ t) := by
  have hidem : smallest k (smallest k s) = smallest k s :=
    smallest_of_card_le (card_smallest_le k s)
  rw [← smallest_union k (smallest k s), hidem, smallest_union]

theorem smallest_union_right (k : ℕ) (s t : Finset α) :
    smallest k (s ∪ smallest k t) = smallest k (s ∪ t) := by
  rw [Finset.union_comm, smallest_union_left, Finset.union_comm]

/-- Adding one element only needs the `k` smallest so far. -/
theorem smallest_insert (k : ℕ) (s : Finset α) (a : α) :
    smallest k (insert a (smallest k s)) = smallest k (insert a s) := by
  apply smallest_eq_of_between
  · intro x hx
    rcases Finset.mem_insert.mp (smallest_subset k _ hx) with rfl | hs
    · exact Finset.mem_insert_self _ _
    · exact Finset.mem_insert_of_mem (smallest_mono_mem (Finset.subset_insert _ _) hx hs)
  · exact Finset.insert_subset_insert _ (smallest_subset k s)

/-- With one element too many, exactly the maximum is dropped. -/
theorem smallest_eq_erase_max {k : ℕ} {s : Finset α} {m : α} (hm : m ∈ s)
    (hmax : ∀ x ∈ s, x ≤ m) (hcard : s.card = k + 1) : smallest k s = s.erase m := by
  symm
  apply eq_smallest (Finset.erase_subset _ _)
  · rw [Finset.card_erase_of_mem hm]; omega
  · intro x hx y hy hny
    have hym : y = m := by
      by_contra hne
      exact hny (Finset.mem_erase.mpr ⟨hne, hy⟩)
    rw [hym]
    exact lt_of_le_of_ne (hmax x (Finset.mem_of_mem_erase hx)) (Finset.ne_of_mem_erase hx)

/-! ## One more element

With `k` elements kept already, a new one either is too large or evicts the maximum. -/

theorem card_smallest_of_le {k : ℕ} {s : Finset α} (h : k ≤ s.card) : (smallest k s).card = k := by
  rw [card_smallest]
  exact min_eq_left h

/-- The maximum of the kept elements and the new one goes. -/
theorem smallest_insert_eq_erase {k : ℕ} {s : Finset α} {a m : α} (hs : k ≤ s.card)
    (ha : a ∉ smallest k s) (hm : m ∈ insert a (smallest k s)) (ham : a ≤ m)
    (hmax : ∀ x ∈ smallest k s, x ≤ m) :
    smallest k (insert a s) = (insert a (smallest k s)).erase m := by
  have hall : ∀ x ∈ insert a (smallest k s), x ≤ m := by
    intro x hx
    rcases Finset.mem_insert.mp hx with rfl | hx
    · exact ham
    · exact hmax x hx
  have hcard : (insert a (smallest k s)).card = k + 1 := by
    rw [Finset.card_insert_of_notMem ha, card_smallest_of_le hs]
  rw [← smallest_insert]
  exact smallest_eq_erase_max hm hall hcard

theorem smallest_insert_of_ge {k : ℕ} {s : Finset α} {a : α} (hs : k ≤ s.card)
    (ha : a ∉ smallest k s) (hmax : ∀ x ∈ smallest k s, x ≤ a) :
    smallest k (insert a s) = smallest k s := by
  rw [smallest_insert_eq_erase hs ha (Finset.mem_insert_self _ _) le_rfl hmax]
  exact Finset.erase_insert ha

theorem smallest_insert_of_lt {k : ℕ} {s : Finset α} {a m : α} (hs : k ≤ s.card)
    (ha : a ∉ smallest k s) (hm : m ∈ smallest k s) (hmax : ∀ x ∈ smallest k s, x ≤ m)
    (ham : a < m) : smallest k (insert a s) = insert a ((smallest k s).erase m) := by
  rw [smallest_insert_eq_erase hs ha (Finset.mem_insert_of_mem hm) ham.le hmax]
  exact Finset.erase_insert_of_ne ham.ne

end Foundations
