import Dataprint.Sketch

/-!
# What Mixing in the Path Loses

`mixHash` (`src/processor.cpp`) scrambles the two halves of a hash with the path and then combines
them.  The scrambling loses nothing, and the combination does, because both of its factors are odd.

- `exists_mixHash_eq` — flipping the top bits of both scrambled halves gives the same result;
- `mixHash_low_bit` — the two halves of a result end in the same bit;
- `mixHash_not_permutation` — so no result belongs to exactly one hash, for any path;
- `emittedHashes_subset` — every hash that a file emits is such a result.
-/

namespace Dataprint

open Foundations Pipeline

/-! ## The two halves -/

theorem M1_odd : M1.getLsbD 0 = true := by decide

theorem M2_odd : M2.getLsbD 0 = true := by decide

/-- A half is scrambled with the path, and any word comes out for some half. -/
theorem exists_scramble_eq {m n : U64} (hinverse : m * n = 1) (k x : U64) :
    ∃ half : U64, scramble 33 32 m (half ^^^ k) = x := by
  obtain ⟨y, hy⟩ := scramble_surjective (s := 33) (t := 32) (by omega) (by omega) hinverse x
  refine ⟨y ^^^ k, ?_⟩
  rw [BitVec.xor_assoc, BitVec.xor_self, BitVec.xor_zero]
  exact hy

/-- The halves of the result are the scrambled halves, combined. -/
theorem mixHash_eq_cross (hi lo b : U64) :
    ((mixHash hi lo b).low64, (mixHash hi lo b).high64) =
      cross M2 M1 (scramble 33 32 M1 (hi ^^^ b * M1)) (scramble 33 32 M2 (lo ^^^ b * M2)) := rfl

/-- Results are equal exactly if the combinations are. -/
theorem mixHash_eq_iff {hi lo b hi' lo' : U64} :
    mixHash hi' lo' b = mixHash hi lo b ↔
      cross M2 M1 (scramble 33 32 M1 (hi' ^^^ b * M1)) (scramble 33 32 M2 (lo' ^^^ b * M2)) =
        cross M2 M1 (scramble 33 32 M1 (hi ^^^ b * M1)) (scramble 33 32 M2 (lo ^^^ b * M2)) := by
  rw [← mixHash_eq_cross, ← mixHash_eq_cross, Prod.mk.injEq]
  constructor
  · intro h
    rw [h]
    exact ⟨rfl, rfl⟩
  · rintro ⟨hlow, hhigh⟩
    cases h : mixHash hi lo b
    cases h' : mixHash hi' lo' b
    rw [h, h'] at hlow hhigh
    congr

/-- **Every hash collides**: at every path another one, different in both halves, has the same
result. -/
theorem exists_mixHash_eq (hi lo b : U64) :
    ∃ hi' lo', hi' ≠ hi ∧ lo' ≠ lo ∧ mixHash hi' lo' b = mixHash hi lo b := by
  have hflip : ∀ x : U64, x ^^^ BitVec.intMin 64 ≠ x := by
    intro x h
    have hzero : BitVec.intMin 64 = 0 := BitVec.xor_right_inj x |>.mp (h.trans BitVec.xor_zero.symm)
    exact absurd hzero (by decide)
  -- the halves that are scrambled to the same words with their top bits flipped
  obtain ⟨hi', hhi'⟩ := exists_scramble_eq M1_mul_inverse (b * M1)
    (scramble 33 32 M1 (hi ^^^ b * M1) ^^^ BitVec.intMin 64)
  obtain ⟨lo', hlo'⟩ := exists_scramble_eq M2_mul_inverse (b * M2)
    (scramble 33 32 M2 (lo ^^^ b * M2) ^^^ BitVec.intMin 64)
  refine ⟨hi', lo', ?_, ?_, ?_⟩
  · rintro rfl
    exact hflip _ hhi'.symm
  · rintro rfl
    exact hflip _ hlo'.symm
  · rw [mixHash_eq_iff, hhi', hlo']
    exact cross_flip M2_odd M1_odd _ _

/-- **Half of the results are missing**: both halves of a result end in the same bit. -/
theorem mixHash_low_bit (hi lo b : U64) :
    (mixHash hi lo b).low64.getLsbD 0 = (mixHash hi lo b).high64.getLsbD 0 :=
  cross_low_bit M2_odd M1_odd _ _

/-- **`mixHash` is no permutation, for any path.**  No result belongs to exactly one pair of halves;
every pair has the same result as some other one; and some values are no results at all. -/
theorem mixHash_not_permutation (b : U64) :
    (∀ out, ¬ ∃! halves : U64 × U64, mixHash halves.1 halves.2 b = out) ∧
    (∀ hi lo, ∃ hi' lo', (hi', lo') ≠ (hi, lo) ∧ mixHash hi' lo' b = mixHash hi lo b) ∧
    ∀ low high : U64, low.getLsbD 0 ≠ high.getLsbD 0 → ∀ hi lo, mixHash hi lo b ≠ ⟨low, high⟩ := by
  refine ⟨?_, ?_, ?_⟩
  · rintro out ⟨⟨hi, lo⟩, hout, hunique⟩
    obtain ⟨hi', lo', hne, -, heq⟩ := exists_mixHash_eq hi lo b
    have hsame := hunique (hi', lo') (heq.trans hout)
    exact hne (congrArg Prod.fst hsame)
  · intro hi lo
    obtain ⟨hi', lo', hne, -, heq⟩ := exists_mixHash_eq hi lo b
    exact ⟨hi', lo', fun h => hne (congrArg Prod.fst h), heq⟩
  · intro low high hbits hi lo heq
    have hagree := mixHash_low_bit hi lo b
    rw [heq] at hagree
    exact hbits hagree

/-- Two different hashes with the same result at the path `0`. -/
theorem mixHash_collision :
    ((0x9152a002c8a95001, 0x89499bedc4a4cdf6) : U64 × U64) ≠ (0, 0) ∧
      mixHash 0x9152a002c8a95001 0x89499bedc4a4cdf6 0 = mixHash 0 0 0 := by
  decide

/-! ## The hashes of a file -/

/-- The values that mixing comes to. -/
def mixedHashes : Set U128 := {x | ∃ hi lo b, x = combineU128 (mixHash hi lo b)}

/-- The two halves of such a value end in the same bit. -/
theorem low_bits_of_mem_mixedHashes {x : U128} (h : x ∈ mixedHashes) :
    x.getLsbD 0 = x.getLsbD 64 := by
  obtain ⟨hi, lo, b, rfl⟩ := h
  have hlow := mixHash_low_bit hi lo b
  simpa [combineU128, makeUint128] using hlow

/-- Everything that is emitted has been mixed. -/
def Emission.Mixed (a : Emission) : Prop := ∀ x ∈ a.hashes, x ∈ mixedHashes

namespace Emission.Mixed

theorem nil : Mixed .nil := fun _ hx => absurd hx List.not_mem_nil

theorem fail (e : Exn) : Mixed (.fail e) := fun _ hx => absurd hx List.not_mem_nil

theorem single (hi lo b : U64) : Mixed (.single (combineU128 (mixHash hi lo b))) :=
  fun _ hx => ⟨hi, lo, b, List.mem_singleton.mp hx⟩

theorem append {a b : Emission} (ha : a.Mixed) (hb : b.Mixed) : (a ++ b).Mixed := by
  obtain ⟨hs, e⟩ := a
  cases e with
  | none =>
    intro x hx
    rcases List.mem_append.mp hx with hx | hx
    · exact ha x hx
    · exact hb x hx
  | some e => exact ha

theorem ofEnd (err : Option ErrorCode) : Mixed (ofEnd err) := by
  cases err with
  | none => exact nil
  | some e => exact fail _

end Emission.Mixed

section Walk

variable (env : Env)

mutual

/-- A walk emits mixed hashes only. -/
theorem emissions_mixed : ∀ (e : Element) (path : U64), (emissions env e path).Mixed
  | .object fields err, path => by
    rw [emissions]
    refine .append ?_ (fieldsEmission_mixed fields err path)
    split
    · exact .single 1 1 0
    · exact .nil
  | .array children err, path => by
    rw [emissions]
    refine .append ?_ (childrenEmission_mixed children err path 0)
    split
    · exact .single 1 1 1
    · exact .nil
  | .scalar token, path => by
    rw [emissions, XXHash]
    cases scalarBytes env token with
    | ok bytes => exact .single _ _ path
    | error e => exact .fail e

theorem fieldsEmission_mixed :
    ∀ (fields : List (Except ErrorCode Bytes × Element)) (err : Option ErrorCode) (path : U64),
      (fieldsEmission env fields err path).Mixed
  | [], err, path => by
    rw [fieldsEmission]
    exact .ofEnd err
  | (.ok key, value) :: rest, err, path => by
    rw [fieldsEmission]
    exact .append (emissions_mixed value _) (fieldsEmission_mixed rest err path)
  | (.error e, value) :: rest, err, path => by
    rw [fieldsEmission]
    exact .fail _

theorem childrenEmission_mixed :
    ∀ (children : List Element) (err : Option ErrorCode) (path index : U64),
      (childrenEmission env children err path index).Mixed
  | [], err, path, index => by
    rw [childrenEmission]
    exact .ofEnd err
  | child :: rest, err, path, index => by
    rw [childrenEmission]
    exact .append (emissions_mixed child _) (childrenEmission_mixed rest err path (index + 1))

end

theorem streamEmission_mixed (docs : List Document) : (streamEmission env docs).Mixed := by
  induction docs with
  | nil => exact .nil
  | cons doc docs ih =>
    refine .append ?_ ih
    cases doc with
    | ok val => exact emissions_mixed env val 0
    | error e => exact .fail _

/-- **Files emit mixed hashes only**, whatever they contain and whatever the parser makes of it. -/
theorem emittedHashes_subset (chunkSize : ℕ) (file : File) :
    ∀ x ∈ emittedHashes env chunkSize file, x ∈ mixedHashes ∧ x.getLsbD 0 = x.getLsbD 64 := by
  intro x hx
  have hmixed := streamEmission_mixed env _ x (List.mem_toFinset.mp hx)
  exact ⟨hmixed, low_bits_of_mem_mixedHashes hmixed⟩

end Walk

end Dataprint
