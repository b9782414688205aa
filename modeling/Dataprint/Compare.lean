import Dataprint.Foundations.Similarity
import Dataprint.Sketch

/-!
# Comparing Two Files

`Processor::compare` sketches two files and prints the ratio that `jaccard` computes of
them (`src/processor.cpp`).  One number `k` tells `jaccard` both which formula to use and,
for the exact one, the sum of the sizes: if a sketch is smaller than `K`, `compare` passes
the sum, and `jaccard` takes `K` for the sign that neither is.

- `similarity_eq` — the ratio in terms of the two sets of hashes.  The exact formula is used
  if some sketch is smaller than `K` *and the sizes do not happen to sum up to* `K`;
- `compare_untruncated_iff` — between complete sketches the ratio is the Jaccard index unless
  they share hashes and their sizes sum up to `K`;
- `similarity_truncated` — when the ratio is the bottom-`K` estimate;
- `compare_separates_iff` — the ratio is symmetric, and one exactly on equal sketches
  unless these have `K / 2` hashes.
-/

namespace Dataprint

open Foundations Pipeline

/-! ## The functions -/

/-- Converts a max-heap to a map. -/
def mapify (h : MaxHeap) : AList fun _ : U128 => Bool :=
  h.data.toList.foldl (fun m element => m.insert element true) ∅

/-- A quotient that has not been evaluated yet. -/
structure Ratio where
  num : ℚ
  den : ℚ
  deriving DecidableEq

def Ratio.value (r : Ratio) : ℚ := r.num / r.den

/-- The keys of a map that another one has as well. -/
def countShared (m m' : AList fun _ : U128 => Bool) : ℕ :=
  m.keys.countP fun key => key ∈ m'

/-- `u` is the number of shared keys. -/
def jaccard (k : ℚ) (m1 m2 : AList fun _ : U128 => Bool) : Ratio :=
  let u := if m1.keys.length ≤ m2.keys.length then countShared m1 m2 else countShared m2 m1
  if k ≠ K then
    -- `k` is taken for the sum of the sizes
    { num := u, den := k - u }
  else
    { num := u, den := k }

/-- What `Processor::compare` computes of two sketches. -/
def similarity (h1 h2 : MinKAccumulator) : Ratio :=
  let m1 := mapify h1.heap
  let m2 := mapify h2.heap
  let k : ℚ := if h1.heap.size < K ∨ h2.heap.size < K then h1.heap.size + h2.heap.size else K
  jaccard k m1 m2

/-- `Processor::compare`: the ratio that the call may print for two files, or the exception that
leaves it. -/
inductive Compare (env : Env) (workers chunkSize : ℕ) (file1 file2 : File) :
    Except Exn Ratio → Prop where
  | done {h1 h2 : MinKAccumulator} : Sketch env workers chunkSize file1 (.ok h1) →
      Sketch env workers chunkSize file2 (.ok h2) →
      Compare env workers chunkSize file1 file2 (.ok (similarity h1 h2))
  | throwFirst {e : Exn} : Sketch env workers chunkSize file1 (.error e) →
      Compare env workers chunkSize file1 file2 (.error e)
  | throwSecond {h1 : MinKAccumulator} {e : Exn} : Sketch env workers chunkSize file1 (.ok h1) →
      Sketch env workers chunkSize file2 (.error e) →
      Compare env workers chunkSize file1 file2 (.error e)

/-- With a worker, `compare` comes to its end. -/
theorem exists_compare {env : Env} {workers : ℕ} (hworkers : 0 < workers) (chunkSize : ℕ)
    (file1 file2 : File) : ∃ r, Compare env workers chunkSize file1 file2 r := by
  obtain ⟨r1, hs1⟩ := exists_sketch hworkers chunkSize file1
  obtain ⟨r2, hs2⟩ := exists_sketch hworkers chunkSize file2
  cases r1 with
  | error e => exact ⟨_, .throwFirst hs1⟩
  | ok h1 =>
    cases r2 with
    | error e => exact ⟨_, .throwSecond hs1 hs2⟩
    | ok h2 => exact ⟨_, .done hs1 hs2⟩

/-! ## The ratio of two sets -/

theorem mem_foldl_insert (l : List U128) (m : AList fun _ : U128 => Bool) (x : U128) :
    x ∈ l.foldl (fun m element => m.insert element true) m ↔ x ∈ l ∨ x ∈ m := by
  induction l generalizing m with
  | nil => simp
  | cons y l ih =>
    rw [List.foldl_cons, ih, AList.mem_insert, List.mem_cons]
    tauto

/-- The keys of the map are the values in the heap. -/
theorem toFinset_keys_mapify (acc : MinKAccumulator) :
    (mapify acc.heap).keys.toFinset = acc.hashes := by
  ext x
  have hmem := mem_foldl_insert acc.heap.data.toList ∅ x
  simpa [mapify, MinKAccumulator.hashes, AList.mem_keys] using hmem

/-- Counting the keys of one map in another counts the common ones. -/
theorem countShared_eq (m m' : AList fun _ : U128 => Bool) :
    countShared m m' = (m.keys.toFinset ∩ m'.keys.toFinset).card := by
  have hnodup : (m.keys.filter fun key => key ∈ m').Nodup := m.keys_nodup.filter _
  rw [countShared, List.countP_eq_length_filter, ← List.toFinset_card_of_nodup hnodup]
  congr 1
  ext x
  simp [AList.mem_keys]

section Sets

variable {c1 c2 : ℕ} {values1 values2 : Finset U128} {h1 h2 : MinKAccumulator}

/-- A sketch has as many values as it has hashes. -/
theorem IsSketch.size_eq_card (h : IsSketch c1 values1 h1) : h1.heap.size = h1.hashes.card := by
  rw [h.size_eq, h.hashes_eq, card_smallest]

/-- **The ratio in terms of the two sets.** -/
theorem similarity_eq (hs1 : IsSketch c1 values1 h1) (hs2 : IsSketch c2 values2 h2) :
    similarity h1 h2 =
      if (h1.hashes.card < K ∨ h2.hashes.card < K) ∧ h1.hashes.card + h2.hashes.card ≠ K then
        { num := (h1.hashes ∩ h2.hashes).card, den := (h1.hashes ∪ h2.hashes).card }
      else
        { num := (h1.hashes ∩ h2.hashes).card, den := K } := by
  have hu : (if (mapify h1.heap).keys.length ≤ (mapify h2.heap).keys.length
      then countShared (mapify h1.heap) (mapify h2.heap)
      else countShared (mapify h2.heap) (mapify h1.heap)) = (h1.hashes ∩ h2.hashes).card := by
    -- both loops count the same keys
    split <;> simp only [countShared_eq, toFinset_keys_mapify, Finset.inter_comm]
  have hsum : (h1.hashes.card : ℚ) + h2.hashes.card = K ↔
      h1.hashes.card + h2.hashes.card = K := by exact_mod_cast Iff.rfl
  simp only [similarity, jaccard, hu, hs1.size_eq_card, hs2.size_eq_card]
  by_cases hsmall : h1.hashes.card < K ∨ h2.hashes.card < K
  · by_cases heq : h1.hashes.card + h2.hashes.card = K
    · -- the sum is taken for the sign that both sketches are full
      simp [hsmall, heq, hsum.mpr heq]
    · simp [hsmall, heq, hsum, card_union_eq]
  · simp [hsmall]

/-- Unless some sketch is small and the sizes do not sum up to `K`, shared hashes are counted in
`K`. -/
theorem similarity_of_counted (hs1 : IsSketch c1 values1 h1) (hs2 : IsSketch c2 values2 h2)
    (h : K ≤ h1.hashes.card ∧ K ≤ h2.hashes.card ∨ h1.hashes.card + h2.hashes.card = K) :
    (similarity h1 h2).value = (h1.hashes ∩ h2.hashes).card / K := by
  have hnot : ¬ ((h1.hashes.card < K ∨ h2.hashes.card < K) ∧
      h1.hashes.card + h2.hashes.card ≠ K) := by omega
  rw [similarity_eq hs1 hs2, if_neg hnot, Ratio.value]

/-- In all other cases the ratio is the index of the two sets. -/
theorem similarity_of_exact (hs1 : IsSketch c1 values1 h1) (hs2 : IsSketch c2 values2 h2)
    (h : h1.hashes.card < K ∨ h2.hashes.card < K)
    (hsum : h1.hashes.card + h2.hashes.card ≠ K) :
    (similarity h1 h2).value = jaccardIndex h1.hashes h2.hashes := by
  rw [similarity_eq hs1 hs2, if_pos ⟨h, hsum⟩, Ratio.value, jaccardIndex]

/-! ## Complete sketches -/

/-- Between small sketches the ratio is the index, unless the sizes sum up to `K` by coincidence. -/
theorem similarity_untruncated_iff (hs1 : IsSketch K values1 h1) (hs2 : IsSketch K values2 h2)
    (hcard1 : values1.card < K) (hcard2 : values2.card < K)
    (hne : (values1 ∪ values2).Nonempty) :
    (similarity h1 h2).value = jaccardIndex values1 values2 ↔
      ¬ (values1.card + values2.card = K ∧ (values1 ∩ values2).Nonempty) := by
  -- the sketches are complete
  have heq1 : h1.hashes = values1 := hs1.hashes_eq.trans (smallest_of_card_le hcard1.le)
  have heq2 : h2.hashes = values2 := hs2.hashes_eq.trans (smallest_of_card_le hcard2.le)
  by_cases hsum : values1.card + values2.card = K
  · have hvalue := similarity_of_counted hs1 hs2 (.inr (by rw [heq1, heq2, hsum]))
    rw [heq1, heq2, ← hsum] at hvalue
    rw [hvalue, card_inter_div_eq_jaccardIndex_iff hne]
    simp [hsum]
  · have hvalue := similarity_of_exact hs1 hs2 (.inl (by rwa [heq1])) (by rwa [heq1, heq2])
    rw [heq1, heq2] at hvalue
    simp [hvalue, hsum]

end Sets

/-- **Untruncated sketches.**  For files with fewer than `K` distinct hashes each, and some hash,
`compare` comes to the Jaccard index of the two sets of hashes if and only if the files share no
hash or their numbers of hashes do not sum up to `K`. -/
theorem compare_untruncated_iff {env : Env} {workers chunkSize : ℕ} {file1 file2 : File} {r : Ratio}
    (h : Compare env workers chunkSize file1 file2 (.ok r))
    (hcard1 : (emittedHashes env chunkSize file1).card < K)
    (hcard2 : (emittedHashes env chunkSize file2).card < K)
    (hne : (emittedHashes env chunkSize file1 ∪ emittedHashes env chunkSize file2).Nonempty) :
    r.value = jaccardIndex (emittedHashes env chunkSize file1) (emittedHashes env chunkSize file2) ↔
      ¬ ((emittedHashes env chunkSize file1).card + (emittedHashes env chunkSize file2).card = K ∧
        (emittedHashes env chunkSize file1 ∩ emittedHashes env chunkSize file2).Nonempty) := by
  cases h with
  | done hs1 hs2 => exact similarity_untruncated_iff hs1.isSketch hs2.isSketch hcard1 hcard2 hne

/-- Two files of strings can be compared. -/
theorem exists_compare_strings (ms ns : List ℕ) :
    ∃ r, Compare Env.strings 1 1 (stringFile ms) (stringFile ns) (.ok r) := by
  obtain ⟨h1, hs1⟩ := exists_sketch_strings ms
  obtain ⟨h2, hs2⟩ := exists_sketch_strings ns
  exact ⟨_, .done hs1 hs2⟩

/-- The index of two files of strings is that of the sets of lengths. -/
theorem jaccardIndex_strings {ms ns : List ℕ} (h : ∀ n ∈ ms ++ ns, n < 2 ^ 64) :
    jaccardIndex (emittedHashes Env.strings 1 (stringFile ms))
      (emittedHashes Env.strings 1 (stringFile ns)) = jaccardIndex ms.toFinset ns.toFinset := by
  rw [emittedHashes_strings, emittedHashes_strings]
  refine jaccardIndex_image (stringHash_injOn.mono fun n hn => h n ?_)
  simpa using hn

/-- Two lines each, one of them in common: the ratio is a third. -/
theorem compare_untruncated_two_lines :
    ∃ r, Compare Env.strings 1 1 (stringFile [0, 1]) (stringFile [1, 2]) (.ok r) ∧
      r.value = 1 / 3 := by
  obtain ⟨r, hr⟩ := exists_compare_strings [0, 1] [1, 2]
  have hcard : ∀ ns : List ℕ, ns = [0, 1] ∨ ns = [1, 2] →
      (emittedHashes Env.strings 1 (stringFile ns)).card = 2 := by
    rintro ns (rfl | rfl) <;> rw [emittedHashes_strings, card_image_stringHash] <;> decide
  have hcard1 := hcard [0, 1] (.inl rfl)
  have hcard2 := hcard [1, 2] (.inr rfl)
  have hne : (emittedHashes Env.strings 1 (stringFile [0, 1]) ∪
      emittedHashes Env.strings 1 (stringFile [1, 2])).Nonempty := by
    simp [emittedHashes_strings]
  have hiff := compare_untruncated_iff hr (by rw [hcard1]; decide) (by rw [hcard2]; decide) hne
  refine ⟨r, hr, ?_⟩
  rw [hiff.mpr (by rw [hcard1, hcard2]; decide), jaccardIndex_strings (by decide)]
  rfl

/-- **A coincidence of sizes.**  A file of 19999 distinct lines and one of a single line of them:
the ratio is 1/20000, not the index 1/19999. -/
theorem compare_untruncated_fails_on_sum :
    ∃ r, Compare Env.strings 1 1 (stringFile (List.range 19999)) (stringFile [0]) (.ok r) ∧
      (emittedHashes Env.strings 1 (stringFile (List.range 19999))).card < K ∧
      (emittedHashes Env.strings 1 (stringFile [0])).card < K ∧
      r.value ≠ jaccardIndex (emittedHashes Env.strings 1 (stringFile (List.range 19999)))
        (emittedHashes Env.strings 1 (stringFile [0])) := by
  have hcard1 : (emittedHashes Env.strings 1 (stringFile (List.range 19999))).card = 19999 := by
    rw [emittedHashes_strings, card_image_stringHash, List.toFinset_range, Finset.card_range]
    intro n hn
    rw [List.mem_toFinset, List.mem_range] at hn
    omega
  have hcard2 : (emittedHashes Env.strings 1 (stringFile [0])).card = 1 := by
    rw [emittedHashes_strings, card_image_stringHash] <;> decide
  have hshared : stringHash 0 ∈ emittedHashes Env.strings 1 (stringFile (List.range 19999)) ∩
      emittedHashes Env.strings 1 (stringFile [0]) := by
    simp only [emittedHashes_strings, Finset.mem_inter]
    constructor <;> apply Finset.mem_image_of_mem <;> simp
  obtain ⟨h1, hs1⟩ := exists_sketch_strings (List.range 19999)
  obtain ⟨h2, hs2⟩ := exists_sketch_strings [0]
  refine ⟨_, .done hs1 hs2, by rw [hcard1]; decide, by rw [hcard2]; decide, ?_⟩
  rw [ne_eq, similarity_untruncated_iff hs1.isSketch hs2.isSketch (by rw [hcard1]; decide)
    (by rw [hcard2]; decide) ⟨_, Finset.mem_union_left _ (Finset.mem_of_mem_inter_left hshared)⟩]
  rw [not_not, hcard1, hcard2]
  exact ⟨rfl, _, hshared⟩

/-! ## Truncated sketches -/

/-- When the ratio of two sketches is their bottom-`K` estimate.  Between two full sketches, every
shared hash has to be among the `K` smallest of the union.  If only one is full, they must share no
hash, or one contain the other. -/
def EstimatesSimilarity (m1 m2 : Finset U128) : Prop :=
  if m1.card = K ∧ m2.card = K then m1 ∩ m2 ⊆ smallest K (m1 ∪ m2)
  else m1 ∩ m2 = ∅ ∨ m1 ⊆ m2 ∨ m2 ⊆ m1

/-- A coincidence of sizes, without which no other pair is estimated. -/
def SizesCoincide (m1 m2 : Finset U128) : Prop :=
  (m1 ∪ m2).card / (m1 ∪ m2).card.gcd K ∣ (m1 ∩ m2).card

section Truncated

variable {values1 values2 : Finset U128} {h1 h2 : MinKAccumulator}

theorem IsSketch.card_hashes_le (h : IsSketch K values1 h1) : h1.hashes.card ≤ K := by
  rw [h.hashes_eq]
  exact card_smallest_le K values1

/-- Two full sketches: all shared hashes are counted, wherever they lie. -/
theorem similarity_full_iff (hs1 : IsSketch K values1 h1) (hs2 : IsSketch K values2 h2)
    (hfull1 : h1.hashes.card = K) (hfull2 : h2.hashes.card = K) :
    (similarity h1 h2).value = kmvEstimate K h1.hashes h2.hashes ↔
      h1.hashes ∩ h2.hashes ⊆ smallest K (h1.hashes ∪ h2.hashes) := by
  rw [similarity_of_counted hs1 hs2 (.inl ⟨hfull1.ge, hfull2.ge⟩)]
  exact kmvEstimate_eq_shared_iff K_pos _ _

/-- Of two sketches that are not both full one is small. -/
theorem small_of_mixed (hs1 : IsSketch K values1 h1) (hs2 : IsSketch K values2 h2)
    (hmixed : ¬ (h1.hashes.card = K ∧ h2.hashes.card = K)) :
    h1.hashes.card < K ∨ h2.hashes.card < K := by
  have hle1 := hs1.card_hashes_le
  have hle2 := hs2.card_hashes_le
  omega

theorem le_card_union_of_full {m1 m2 : Finset U128} (hfull : m1.card = K ∨ m2.card = K) :
    K ≤ (m1 ∪ m2).card := by
  rcases hfull with h | h
  · exact h ▸ Finset.card_le_card Finset.subset_union_left
  · exact h ▸ Finset.card_le_card Finset.subset_union_right

/-- One full sketch: the ratio is the index of the two sets, as if none were truncated. -/
theorem similarity_mixed_iff (hs1 : IsSketch K values1 h1) (hs2 : IsSketch K values2 h2)
    (hfull : h1.hashes.card = K ∨ h2.hashes.card = K)
    (hmixed : ¬ (h1.hashes.card = K ∧ h2.hashes.card = K)) :
    (similarity h1 h2).value = kmvEstimate K h1.hashes h2.hashes ↔
      ((h1.hashes ∩ h2.hashes) \ smallest K (h1.hashes ∪ h2.hashes)).card *
          (h1.hashes ∪ h2.hashes).card =
        (h1.hashes ∩ h2.hashes).card *
          ((h1.hashes ∪ h2.hashes) \ smallest K (h1.hashes ∪ h2.hashes)).card := by
  by_cases hsum : h1.hashes.card + h2.hashes.card = K
  · -- the other sketch is empty, and nothing is shared
    have hempty : h1.hashes = ∅ ∨ h2.hashes = ∅ := by
      simp only [← Finset.card_eq_zero]
      omega
    have hshared : h1.hashes ∩ h2.hashes = ∅ := by
      rcases hempty with h | h <;> simp [h]
    rw [similarity_of_counted hs1 hs2 (.inr hsum), kmvEstimate, hshared]
    simp
  · rw [similarity_of_exact hs1 hs2 (small_of_mixed hs1 hs2 hmixed) hsum]
    exact kmvEstimate_eq_jaccardIndex_iff K_pos (le_card_union_of_full hfull)

/-- The union of a full sketch and a part of it has nothing beyond its `K` smallest hashes. -/
theorem sdiff_smallest_of_subset {m1 m2 : Finset U128} (hcard : m2.card ≤ K) (h : m1 ⊆ m2) :
    (m1 ∪ m2) \ smallest K (m1 ∪ m2) = ∅ := by
  rw [Finset.union_eq_right.mpr h, smallest_of_card_le hcard, Finset.sdiff_self]

/-- Without shared hashes both are zero; if one sketch contains the other, all hashes are among the
`K` smallest of the union. -/
theorem similarity_of_disjoint_or_subset (hs1 : IsSketch K values1 h1) (hs2 : IsSketch K values2 h2)
    (hfull : h1.hashes.card = K ∨ h2.hashes.card = K)
    (hmixed : ¬ (h1.hashes.card = K ∧ h2.hashes.card = K))
    (h : h1.hashes ∩ h2.hashes = ∅ ∨ h1.hashes ⊆ h2.hashes ∨ h2.hashes ⊆ h1.hashes) :
    (similarity h1 h2).value = kmvEstimate K h1.hashes h2.hashes := by
  apply (similarity_mixed_iff hs1 hs2 hfull hmixed).mpr
  rcases h with hnone | hsub
  · simp [hnone]
  · have hrest : (h1.hashes ∪ h2.hashes) \ smallest K (h1.hashes ∪ h2.hashes) = ∅ := by
      rcases hsub with hsub | hsub
      · exact sdiff_smallest_of_subset hs2.card_hashes_le hsub
      · rw [Finset.union_comm]
        exact sdiff_smallest_of_subset hs1.card_hashes_le hsub
    have hcommon : (h1.hashes ∩ h2.hashes) \ smallest K (h1.hashes ∪ h2.hashes) = ∅ := by
      rw [← Finset.subset_empty, ← hrest]
      exact Finset.sdiff_subset_sdiff Finset.inter_subset_union (Finset.Subset.refl _)
    rw [hrest, hcommon, Finset.card_empty, Nat.zero_mul, Nat.mul_zero]

/-- A ratio that is the estimate needs sizes that fit. -/
theorem dvd_of_similarity_eq (hs1 : IsSketch K values1 h1) (hs2 : IsSketch K values2 h2)
    (hfull : h1.hashes.card = K ∨ h2.hashes.card = K)
    (hmixed : ¬ (h1.hashes.card = K ∧ h2.hashes.card = K))
    (hshared : h1.hashes ∩ h2.hashes ≠ ∅)
    (h : (similarity h1 h2).value = kmvEstimate K h1.hashes h2.hashes) :
    (h1.hashes ∪ h2.hashes).card / (h1.hashes ∪ h2.hashes).card.gcd K ∣
      (h1.hashes ∩ h2.hashes).card := by
  -- one sketch is full, and the other has the shared hash
  have hsum : h1.hashes.card + h2.hashes.card ≠ K := by
    have hcommon1 : (h1.hashes ∩ h2.hashes).card ≤ h1.hashes.card :=
      Finset.card_le_card Finset.inter_subset_left
    have hcommon2 : (h1.hashes ∩ h2.hashes).card ≤ h2.hashes.card :=
      Finset.card_le_card Finset.inter_subset_right
    have hpos := Finset.card_pos.mpr (Finset.nonempty_iff_ne_empty.mpr hshared)
    omega
  rw [similarity_of_exact hs1 hs2 (small_of_mixed hs1 hs2 hmixed) hsum] at h
  exact dvd_card_inter_of_jaccardIndex_eq K_pos (le_card_union_of_full hfull) h

/-- **Truncated sketches.**  For any two sketches of which at least one is full, the ratio is the
bottom-`K` estimate under the condition of `EstimatesSimilarity`.  Between two full sketches it is
the estimate in no other case, and else only if the sizes coincide. -/
theorem similarity_truncated (hs1 : IsSketch K values1 h1) (hs2 : IsSketch K values2 h2)
    (hfull : h1.hashes.card = K ∨ h2.hashes.card = K) :
    (EstimatesSimilarity h1.hashes h2.hashes →
      (similarity h1 h2).value = kmvEstimate K h1.hashes h2.hashes) ∧
    (h1.hashes.card = K ∧ h2.hashes.card = K →
      (similarity h1 h2).value = kmvEstimate K h1.hashes h2.hashes →
      EstimatesSimilarity h1.hashes h2.hashes) ∧
    ((similarity h1 h2).value = kmvEstimate K h1.hashes h2.hashes →
      EstimatesSimilarity h1.hashes h2.hashes ∨ SizesCoincide h1.hashes h2.hashes) := by
  unfold EstimatesSimilarity
  by_cases hboth : h1.hashes.card = K ∧ h2.hashes.card = K
  · rw [if_pos hboth, similarity_full_iff hs1 hs2 hboth.1 hboth.2]
    exact ⟨id, fun _ => id, .inl⟩
  · rw [if_neg hboth]
    refine ⟨similarity_of_disjoint_or_subset hs1 hs2 hfull hboth, fun h => absurd h hboth, ?_⟩
    intro h
    by_cases hshared : h1.hashes ∩ h2.hashes = ∅
    · exact .inl (.inl hshared)
    · exact .inr (dvd_of_similarity_eq hs1 hs2 hfull hboth hshared h)

end Truncated

/-- The sketch of a file of at most `K` strings is complete. -/
theorem hashes_strings {ns : List ℕ} {h : MinKAccumulator}
    (hs : Sketch Env.strings 1 1 (stringFile ns) (.ok h)) (hcard : ns.toFinset.card ≤ K) :
    h.hashes = ns.toFinset.image stringHash := by
  rw [hs.hashes_eq, emittedHashes_strings]
  exact smallest_of_card_le (Finset.card_image_le.trans hcard)

theorem card_image_range_K : ((List.range K).toFinset.image stringHash).card = K := by
  rw [card_image_stringHash, List.toFinset_range, Finset.card_range]
  intro n hn
  rw [List.mem_toFinset, List.mem_range, K] at hn
  omega

/-- A full sketch and one of its hashes: the ratio is the estimate. -/
theorem similarity_truncated_subset :
    ∃ h1 h2, Sketch Env.strings 1 1 (stringFile (List.range K)) (.ok h1) ∧
      Sketch Env.strings 1 1 (stringFile [0]) (.ok h2) ∧
      (similarity h1 h2).value = kmvEstimate K h1.hashes h2.hashes := by
  obtain ⟨h1, hs1⟩ := exists_sketch_strings (List.range K)
  obtain ⟨h2, hs2⟩ := exists_sketch_strings [0]
  have hhashes1 := hashes_strings hs1 (by rw [List.toFinset_range, Finset.card_range])
  have hhashes2 := hashes_strings hs2 (by decide)
  have hcard : h1.hashes.card = K := by rw [hhashes1, card_image_range_K]
  refine ⟨h1, h2, hs1, hs2, (similarity_truncated hs1.isSketch hs2.isSketch (.inl hcard)).1 ?_⟩
  have hsub : h2.hashes ⊆ h1.hashes := by
    rw [hhashes1, hhashes2]
    exact Finset.image_subset_image (by simp [K])
  have hcard2 : h2.hashes.card ≠ K := by
    rw [hhashes2, card_image_stringHash] <;> decide
  rw [EstimatesSimilarity, if_neg fun h => hcard2 h.2]
  exact .inr (.inr hsub)

/-- **The index where the estimate is due.**  A full sketch, and two hashes one of which it has: the
ratio is 1/20001, which is no estimate from `K` samples. -/
theorem similarity_truncated_fails_on_mixed :
    ∃ h1 h2, Sketch Env.strings 1 1 (stringFile (List.range K)) (.ok h1) ∧
      Sketch Env.strings 1 1 (stringFile [0, K]) (.ok h2) ∧ h1.hashes.card = K ∧
      (similarity h1 h2).value ≠ kmvEstimate K h1.hashes h2.hashes := by
  obtain ⟨h1, hs1⟩ := exists_sketch_strings (List.range K)
  obtain ⟨h2, hs2⟩ := exists_sketch_strings [0, K]
  have hhashes1 := hashes_strings hs1 (by rw [List.toFinset_range, Finset.card_range])
  have hhashes2 := hashes_strings hs2 (by decide)
  have hcard1 : h1.hashes.card = K := by rw [hhashes1, card_image_range_K]
  have hcard2 : h2.hashes.card ≠ K := by
    rw [hhashes2, card_image_stringHash] <;> decide
  -- one hash in common, and one hash more than a full sketch has
  have hinj : Set.InjOn stringHash ((List.range K).toFinset ∪ [0, K].toFinset : Finset ℕ) := by
    refine stringHash_injOn.mono fun n hn => ?_
    have hle : n ≤ K := by simpa [le_iff_eq_or_lt, K] using hn
    exact lt_of_le_of_lt hle (by decide)
  have hinter : (h1.hashes ∩ h2.hashes).card = 1 := by
    rw [hhashes1, hhashes2, card_inter_image hinj, Finset.card_eq_one]
    refine ⟨0, ?_⟩
    ext n
    simp [K]
  have hunion : (h1.hashes ∪ h2.hashes).card = K + 1 := by
    have hsum := Finset.card_union_add_card_inter h1.hashes h2.hashes
    rw [hinter, hcard1, hhashes2, card_image_stringHash (by decide)] at hsum
    rw [hhashes2]
    have htwo : [0, K].toFinset.card = 2 := by decide
    omega
  have hrest : ((h1.hashes ∪ h2.hashes) \ smallest K (h1.hashes ∪ h2.hashes)).card = 1 := by
    rw [Finset.card_sdiff_of_subset (smallest_subset K _), card_smallest, hunion]
    decide
  refine ⟨h1, h2, hs1, hs2, hcard1, ?_⟩
  rw [ne_eq, similarity_mixed_iff hs1.isSketch hs2.isSketch (.inl hcard1) fun h => hcard2 h.2,
    hunion, hinter, hrest, K]
  omega

/-! ## Symmetry and separation -/

/-- The ratio does not depend on the order of the sketches, and is one exactly on equal ones. -/
def Separates (h1 h2 : MinKAccumulator) : Prop :=
  (similarity h1 h2).value = (similarity h2 h1).value ∧
    ((similarity h1 h2).value = 1 ↔ h1.hashes = h2.hashes)

/-- The second file has the content of the first one, or its lines in another order, each of them
blank or one document. -/
def SameLines (simd : Simdjson) (file1 file2 : File) : Prop :=
  file1.content = file2.content ∨
    ∃ parse docs, ReadsLines simd parse ∧ LineDocuments parse (lines file1.content) docs ∧
      (lines file1.content).Perm (lines file2.content)

section Separation

variable {values1 values2 : Finset U128} {h1 h2 : MinKAccumulator}

theorem similarity_comm (hs1 : IsSketch K values1 h1) (hs2 : IsSketch K values2 h2) :
    similarity h1 h2 = similarity h2 h1 := by
  rw [similarity_eq hs1 hs2, similarity_eq hs2 hs1, Finset.inter_comm, Finset.union_comm]
  exact if_congr (by rw [or_comm, add_comm]) rfl rfl

/-- Equal sketches are at ratio one, unless twice their size is `K` by coincidence. -/
theorem similarity_eq_one_iff (hs1 : IsSketch K values1 h1) (hs2 : IsSketch K values2 h2)
    (hne : (h1.hashes ∪ h2.hashes).Nonempty) :
    (similarity h1 h2).value = 1 ↔ h1.hashes = h2.hashes ∧ 2 * h1.hashes.card ≠ K := by
  have hle1 := hs1.card_hashes_le
  have hle2 := hs2.card_hashes_le
  have hpos := K_pos
  -- twice the size of one of two equal sketches is the sum of both
  have hdouble : h1.hashes = h2.hashes →
      2 * h1.hashes.card = h1.hashes.card + h2.hashes.card := by
    intro h
    rw [← h, two_mul]
  by_cases hboth : h1.hashes.card = K ∧ h2.hashes.card = K
  · rw [similarity_of_counted hs1 hs2 (.inl ⟨hboth.1.ge, hboth.2.ge⟩),
      card_inter_div_eq_one_iff K_pos hboth.1 hboth.2]
    have hcard : 2 * h1.hashes.card ≠ K := by omega
    exact (and_iff_left hcard).symm
  by_cases hsum : h1.hashes.card + h2.hashes.card = K
  · have hvalue := similarity_of_counted hs1 hs2 (.inr hsum)
    have hone := card_inter_div_ne_one hne
    rw [hsum, ← hvalue] at hone
    constructor
    · exact fun h => absurd h hone
    · exact fun h => absurd ((hdouble h.1).trans hsum) h.2
  · rw [similarity_of_exact hs1 hs2 (by omega) hsum, jaccardIndex_eq_one_iff hne]
    constructor
    · exact fun h => ⟨h, fun hcard => hsum ((hdouble h).symm.trans hcard)⟩
    · exact And.left

theorem similarity_separates_iff (hs1 : IsSketch K values1 h1) (hs2 : IsSketch K values2 h2)
    (hne : (h1.hashes ∪ h2.hashes).Nonempty) :
    Separates h1 h2 ↔ ¬ (h1.hashes = h2.hashes ∧ 2 * h1.hashes.card = K) := by
  rw [Separates, similarity_comm hs1 hs2, similarity_comm hs2 hs1,
    similarity_eq_one_iff hs1 hs2 hne]
  tauto

end Separation

/-- The documents of such a file are those of the first one. -/
theorem SameLines.perm {simd : Simdjson} {file1 file2 : File} (h : SameLines simd file1 file2)
    (chunkSize : ℕ) :
    (streamedFile simd chunkSize file1).Perm (streamedFile simd chunkSize file2) := by
  rcases h with h | ⟨parse, docs, hreads, hdocs, hperm⟩
  · rw [streamedFile, streamedFile, h]
  · exact streamedFile_reordered hreads hdocs hperm chunkSize

/-- **Symmetry and separation.**  For any two sketches that are not both empty, `compare` is
symmetric, and its ratio is one exactly on equal sketches, if and only if these are not equal
sketches of `K / 2` hashes.  A file with a document, compared with itself or with its lines in
another order, is at ratio one if and only if it does not have `K / 2` distinct hashes. -/
theorem compare_separates_iff (env : Env) (workers chunkSize : ℕ) :
    (∀ (values1 values2 : Finset U128) (h1 h2 : MinKAccumulator), IsSketch K values1 h1 →
      IsSketch K values2 h2 → (h1.hashes ∪ h2.hashes).Nonempty →
      (Separates h1 h2 ↔ ¬ (h1.hashes = h2.hashes ∧ 2 * h1.hashes.card = K))) ∧
    ∀ (file1 file2 : File) (r : Ratio), Compare env workers chunkSize file1 file2 (.ok r) →
      streamedFile env.simd chunkSize file1 ≠ [] → SameLines env.simd file1 file2 →
      (r.value = 1 ↔ 2 * (emittedHashes env chunkSize file1).card ≠ K) := by
  refine ⟨fun values1 values2 h1 h2 hs1 hs2 hne => similarity_separates_iff hs1 hs2 hne, ?_⟩
  intro file1 file2 r h hdocs hlines
  cases h with
  | @done h1 h2 hs1 hs2 =>
    have hsame := emittedHashes_eq_of_perm hs1 hs2 (hlines.perm chunkSize)
    have hhashes : h1.hashes = h2.hashes := by rw [hs1.hashes_eq, hs2.hashes_eq, hsame]
    have hcard : h1.hashes.card = min K (emittedHashes env chunkSize file1).card := by
      rw [hs1.hashes_eq, card_smallest]
    have hpos := K_pos
    have hne : h1.hashes.Nonempty := by
      have hemitted := Finset.card_pos.mpr (hs1.nonempty hdocs)
      rw [← Finset.card_pos, hcard]
      omega
    rw [similarity_eq_one_iff hs1.isSketch hs2.isSketch (hne.mono Finset.subset_union_left), hcard]
    -- a full sketch is larger than `K / 2`, a complete one has all hashes of the file
    constructor
    · rintro ⟨-, h⟩
      omega
    · exact fun h => ⟨hhashes, by omega⟩

/-- Two lines and the same lines in the other order: the ratio is one. -/
theorem compare_separates_two_lines :
    ∃ r, Compare Env.strings 1 1 (stringFile [0, 1]) (stringFile [1, 0]) (.ok r) ∧ r.value = 1 := by
  obtain ⟨r, hr⟩ := exists_compare_strings [0, 1] [1, 0]
  have hdocs := lineDocuments_stringFile [0, 1]
  have hperm : (lines (stringFile [0, 1]).content).Perm (lines (stringFile [1, 0]).content) := by
    decide
  have hcard : (emittedHashes Env.strings 1 (stringFile [0, 1])).card = 2 := by
    rw [emittedHashes_strings, card_image_stringHash] <;> decide
  refine ⟨r, hr, ((compare_separates_iff Env.strings 1 1).2 _ _ r hr ?_
    (.inr ⟨parseStrings, _, Env.strings_readsLines, hdocs, hperm⟩)).mpr (by rw [hcard]; decide)⟩
  rw [streamedFile_strings]
  simp

/-- **A file that is not like itself.**  A file of 10000 distinct lines, compared with itself, is at
ratio 1/2. -/
theorem compare_separates_fails_on_half :
    ∃ h1 h2, Sketch Env.strings 1 1 (stringFile (List.range 10000)) (.ok h1) ∧
      Sketch Env.strings 1 1 (stringFile (List.range 10000)) (.ok h2) ∧
      Compare Env.strings 1 1 (stringFile (List.range 10000)) (stringFile (List.range 10000))
        (.ok (similarity h1 h2)) ∧
      h1.hashes = h2.hashes ∧ (similarity h1 h2).value = 1 / 2 := by
  obtain ⟨h1, hs1⟩ := exists_sketch_strings (List.range 10000)
  obtain ⟨h2, hs2⟩ := exists_sketch_strings (List.range 10000)
  have hhashes : h1.hashes = h2.hashes := by rw [hs1.hashes_eq, hs2.hashes_eq]
  have hcard : h2.hashes.card = 10000 := by
    rw [hs2.hashes_eq, card_smallest, emittedHashes_strings, card_image_stringHash,
      List.toFinset_range, Finset.card_range]
    · decide
    · intro n hn
      rw [List.mem_toFinset, List.mem_range] at hn
      omega
  refine ⟨h1, h2, hs1, hs2, .done hs1 hs2, hhashes, ?_⟩
  rw [similarity_of_counted hs1.isSketch hs2.isSketch (.inr (by rw [hhashes, hcard]; decide)),
    hhashes, Finset.inter_self, hcard]
  norm_num [K]

end Dataprint
