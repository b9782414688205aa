import Dataprint.Policies

/-!
# Merging Accumulators

What `reduce` makes of two accumulators (`include/policies.h`).

- `fingerprint_exact` — for a fingerprint, feeding and reducing in any grouping gives the residue
  of the sum of all values;
- `Same` is equality of two sketches up to the order inside the heap vector, and
  `IsSketch.same` says that a sketch is determined by what it holds;
- `reduce_capacity_iff` — `reduce` builds its result with the default capacity `K`, so it merges
  sketches of another capacity into one of `K`.
-/

namespace Dataprint

open Foundations

/-! ## Fingerprints -/

/-- **`addMod` is exact and canonical.**  On all 128-bit arguments it adds modulo `2^127 - 1`, no
sum inside it wraps around, and its result is reduced.  So a fingerprint is the reduced residue of
the sum of its values, in whatever grouping they are fed to accumulators and these are reduced. -/
theorem fingerprint_exact :
    (∀ x : U128, (x >>> 127).toNat + (x &&& PRIME).toNat < 2 ^ 128) ∧
    (∀ a b : U128, (reduceModP a).toNat + (reduceModP b).toNat < 2 ^ 128 ∧
      (addMod a b).toNat = (a.toNat + b.toNat) % (2 ^ 127 - 1) ∧
      (addMod a b).toNat < 2 ^ 127 - 1) ∧
    ∀ g : Grouping U128, ∃ acc : U128,
      g.run FingerprintPolicy.init FingerprintPolicy.accumulate FingerprintPolicy.reduce =
        .ok () acc ∧
      acc.toNat = (g.values.map BitVec.toNat).sum % (2 ^ 127 - 1) ∧ acc.toNat < 2 ^ 127 - 1 := by
  refine ⟨reduceModP_no_wrap, fun a b => ⟨addMod_no_wrap a b, toNat_addMod a b, addMod_lt a b⟩, ?_⟩
  intro g
  obtain ⟨acc, hrun, hsum⟩ := fingerprintPolicy_mergeable.run_grouping g
  have hacc : acc.toNat = (g.values.map BitVec.toNat).sum % primeNat := by simpa [IsSum] using hsum
  refine ⟨acc, hrun, hacc, ?_⟩
  rw [hacc]
  exact Nat.mod_lt _ primeNat_pos

/-! ## Equality of sketches -/

namespace MinKAccumulator

/-- Two accumulators that differ in the order inside the heap vector at most. -/
structure Same (acc acc' : MinKAccumulator) : Prop where
  capacity : acc.heap.capacity = acc'.heap.capacity
  contents : acc.heap.contents = acc'.heap.contents
  seen : ∀ x, acc.seen.lookup x = acc'.seen.lookup x

/-- Every key of the map stands for `true`. -/
def SeenTrue (acc : MinKAccumulator) : Prop := ∀ x b, acc.seen.lookup x = some b → b = true

theorem SeenTrue.new (c : ℕ) : SeenTrue (new c) := by
  intro x b h
  simp [MinKAccumulator.new] at h

theorem seenTrue_insert {acc : MinKAccumulator} (h : acc.SeenTrue) (heap : MaxHeap) (v : U128) :
    SeenTrue ⟨heap, acc.seen.insert v true⟩ := by
  intro x b hx
  by_cases hxv : x = v
  · subst hxv
    simpa using hx.symm
  · exact h x b (by simpa [AList.lookup_insert_ne hxv] using hx)

theorem seenTrue_erase {acc : MinKAccumulator} (h : acc.SeenTrue) (heap : MaxHeap) (v : U128) :
    SeenTrue ⟨heap, acc.seen.erase v⟩ := by
  intro x b hx
  by_cases hxv : x = v
  · subst hxv
    simp at hx
  · exact h x b (by simpa [AList.lookup_erase_ne hxv] using hx)

end MinKAccumulator

open MinKAccumulator (Same SeenTrue seenTrue_insert seenTrue_erase)

namespace IsSketch

variable {c d : ℕ} {values values' : Finset U128} {acc acc' : MinKAccumulator}

theorem seenTrue_accumulate (h : IsSketch c values acc) (hc : 0 < c) (htrue : acc.SeenTrue)
    {v : U128} (hrun : (MinKPolicy.accumulate v).run acc = .ok () acc') : acc'.SeenTrue := by
  rcases h.accumulate_cases hc v with ⟨-, hrun'⟩ | ⟨-, -, hrun'⟩ | ⟨-, -, -, hrun'⟩ |
    ⟨-, -, -, heap, -, hrun'⟩
  · cases hrun.symm.trans hrun'
    exact htrue
  · cases hrun.symm.trans hrun'
    exact seenTrue_insert htrue _ v
  · cases hrun.symm.trans hrun'
    exact htrue
  · cases hrun.symm.trans hrun'
    exact seenTrue_insert (seenTrue_erase htrue heap _) heap v

theorem seenTrue_accumulate_list (h : IsSketch c values acc) (hc : 0 < c) (htrue : acc.SeenTrue)
    {l : List U128} (hrun : (forM l MinKPolicy.accumulate).run acc = .ok () acc') :
    acc'.SeenTrue := by
  induction l generalizing values acc with
  | nil =>
    cases hrun
    exact htrue
  | cons v l ih =>
    obtain ⟨acc₁, hrun₁, h₁⟩ := h.accumulate hc v
    rw [List.forM_cons, EStateM.run_bind, hrun₁] at hrun
    exact ih h₁ (h.seenTrue_accumulate hc htrue hrun₁) hrun

/-- **A sketch is determined by what it holds**, up to the order inside the heap vector. -/
theorem same (h : IsSketch c values acc) (h' : IsSketch c values' acc') (htrue : acc.SeenTrue)
    (htrue' : acc'.SeenTrue) (heq : smallest c values = smallest c values') : acc.Same acc' where
  capacity := h.capacity.trans h'.capacity.symm
  contents := by
    rw [h.nodup.ext h'.nodup]
    intro x
    rw [h.mem_heap, h'.mem_heap, heq]
  seen x := by
    have hmem : x ∈ acc.seen ↔ x ∈ acc'.seen := by rw [h.mem_seen, h'.mem_seen, heq]
    rw [← AList.lookup_isSome, ← AList.lookup_isSome] at hmem
    cases hx : acc.seen.lookup x with
    | none =>
      rw [hx] at hmem
      cases hx' : acc'.seen.lookup x with
      | none => rfl
      | some b' => simp [hx'] at hmem
    | some b =>
      rw [hx] at hmem
      cases hx' : acc'.seen.lookup x with
      | none => simp [hx'] at hmem
      | some b' => rw [htrue x b hx, htrue' x b' hx']

end IsSketch

/-! ## Reducing sketches -/

/-- An accumulator of capacity `c` that was fed with the values, starting from an empty one. -/
def Fed (c : ℕ) (values : List U128) (acc : MinKAccumulator) : Prop :=
  (forM values MinKPolicy.accumulate).run (.new c) = .ok () acc

theorem Fed.isSketch {c : ℕ} {values : List U128} {acc : MinKAccumulator} (h : Fed c values acc)
    (hc : 0 < c) : IsSketch c values.toFinset acc := by
  obtain ⟨acc', hrun, hsketch⟩ := (IsSketch.new c).accumulate_list hc values
  cases hrun.symm.trans h
  rwa [Finset.empty_union] at hsketch

theorem Fed.seenTrue {c : ℕ} {values : List U128} {acc : MinKAccumulator} (h : Fed c values acc)
    (hc : 0 < c) : acc.SeenTrue :=
  (IsSketch.new c).seenTrue_accumulate_list hc (.new c) h

theorem exists_fed {c : ℕ} (hc : 0 < c) (values : List U128) : ∃ acc, Fed c values acc := by
  obtain ⟨acc, hrun, -⟩ := (IsSketch.new c).accumulate_list hc values
  exact ⟨acc, hrun⟩

/-- What is reduced was fed with the two heaps, at the default capacity. -/
theorem fed_of_reduce {glob loc merged : MinKAccumulator}
    (h : (MinKPolicy.reduce loc).run glob = .ok () merged) :
    Fed K (glob.heap.data.toList ++ loc.heap.data.toList) merged := by
  have hloop : (forM (glob.heap.data.toList ++ loc.heap.data.toList) MinKPolicy.accumulate) =
      (do
        forM glob.heap.data.toList MinKPolicy.accumulate
        forM loc.heap.data.toList MinKPolicy.accumulate) := List.forM_append
  rw [Fed, hloop]
  simp only [MinKPolicy.reduce, EStateM.run_bind, EStateM.run_get] at h
  split at h
  case h_1 hrun =>
    cases h
    exact hrun
  case h_2 => cases h

/-- The result holds the `K` smallest values of both. -/
theorem isSketch_of_reduce {c d : ℕ} {values values' : Finset U128}
    {glob loc merged : MinKAccumulator}
    (h : IsSketch c values glob) (h' : IsSketch d values' loc)
    (hrun : (MinKPolicy.reduce loc).run glob = .ok () merged) :
    IsSketch K (smallest c values ∪ smallest d values') merged := by
  obtain ⟨merged', hrun', hsketch⟩ := h.reduce h'
  cases hrun.symm.trans hrun'
  exact hsketch

/-- `reduce` of `y` into `x` respects the capacity `c`: its result has it, and is the accumulator of
the `c` smallest values of both heaps that feeding all values one after another leads to. -/
def RespectsCapacity (c : ℕ) (values : List U128) (x y : MinKAccumulator) : Prop :=
  ∃ merged whole, (MinKPolicy.reduce y).run x = .ok () merged ∧ Fed c values whole ∧
    merged.heap.capacity = c ∧ MaxHeap.IsHeap merged.heap.data ∧ merged.heap.data.toList.Nodup ∧
    merged.hashes = smallest c (x.hashes ∪ y.hashes) ∧ merged.Same whole

/-- Either of two accumulators may be reduced into the other. -/
def Commutes (x y : MinKAccumulator) : Prop :=
  ∃ xy yx, (MinKPolicy.reduce y).run x = .ok () xy ∧ (MinKPolicy.reduce x).run y = .ok () yx ∧
    xy.Same yx

/-- Three accumulators may be reduced from the left or from the right. -/
def Associates (x y z : MinKAccumulator) : Prop :=
  ∃ xy yz left right, (MinKPolicy.reduce y).run x = .ok () xy ∧
    (MinKPolicy.reduce z).run y = .ok () yz ∧ (MinKPolicy.reduce z).run xy = .ok () left ∧
    (MinKPolicy.reduce yz).run x = .ok () right ∧ left.Same right

section Reduce

variable {c : ℕ} {xs ys zs : List U128} {x y z : MinKAccumulator}

theorem respectsCapacity_iff (hc : 0 < c) (hx : Fed c xs x) (hy : Fed c ys y) :
    RespectsCapacity c (xs ++ ys) x y ↔ c = K := by
  have hsx := hx.isSketch hc
  have hsy := hy.isSketch hc
  constructor
  · rintro ⟨merged, -, hrun, -, hcapacity, -⟩
    rw [← hcapacity]
    exact (isSketch_of_reduce hsx hsy hrun).capacity
  · rintro rfl
    obtain ⟨merged, hrun, hmerged⟩ := hsx.reduce hsy
    obtain ⟨whole, hwhole⟩ := exists_fed hc (xs ++ ys)
    have hswhole := hwhole.isSketch hc
    have hvalues : smallest K (smallest K xs.toFinset ∪ smallest K ys.toFinset) =
        smallest K (xs ++ ys).toFinset := by
      rw [smallest_union, List.toFinset_append]
    refine ⟨merged, whole, hrun, hwhole, hmerged.capacity, hmerged.isHeap, hmerged.nodup, ?_, ?_⟩
    · rw [hmerged.hashes_eq, hsx.hashes_eq, hsy.hashes_eq]
    · exact hmerged.same hswhole ((fed_of_reduce hrun).seenTrue K_pos) (hwhole.seenTrue hc) hvalues

theorem commutes (hc : 0 < c) (hx : Fed c xs x) (hy : Fed c ys y) : Commutes x y := by
  have hsx := hx.isSketch hc
  have hsy := hy.isSketch hc
  obtain ⟨xy, hxy, hsxy⟩ := hsx.reduce hsy
  obtain ⟨yx, hyx, hsyx⟩ := hsy.reduce hsx
  refine ⟨xy, yx, hxy, hyx, hsxy.same hsyx ((fed_of_reduce hxy).seenTrue K_pos)
    ((fed_of_reduce hyx).seenTrue K_pos) ?_⟩
  rw [Finset.union_comm]

theorem associates (hc : 0 < c) (hx : Fed c xs x) (hy : Fed c ys y) (hz : Fed c zs z) :
    Associates x y z := by
  have hsx := hx.isSketch hc
  have hsy := hy.isSketch hc
  have hsz := hz.isSketch hc
  obtain ⟨xy, hxy, hsxy⟩ := hsx.reduce hsy
  obtain ⟨yz, hyz, hsyz⟩ := hsy.reduce hsz
  obtain ⟨left, hleft, hsleft⟩ := hsxy.reduce hsz
  obtain ⟨right, hright, hsright⟩ := hsx.reduce hsyz
  refine ⟨xy, yz, left, right, hxy, hyz, hleft, hright, hsleft.same hsright
    ((fed_of_reduce hleft).seenTrue K_pos) ((fed_of_reduce hright).seenTrue K_pos) ?_⟩
  -- cutting one side down to the `K` smallest first makes no difference
  rw [smallest_union_left, smallest_union_right, Finset.union_assoc]

end Reduce

/-- **When `reduce` respects the capacity.**  For accumulators of capacity `c` that were fed from
empty ones, the result has capacity `c`, holds the `c` smallest values of both heaps, and is the
accumulator of the concatenated inputs, if and only if `c` is the default capacity `K`.  Reducing
is commutative and associative at every capacity. -/
theorem reduce_capacity_iff (c : ℕ) (hc : 1 ≤ c) (xs ys zs : List U128) (x y z : MinKAccumulator)
    (hx : Fed c xs x) (hy : Fed c ys y) (hz : Fed c zs z) :
    (RespectsCapacity c (xs ++ ys) x y ↔ c = K) ∧ Commutes x y ∧ Associates x y z :=
  ⟨respectsCapacity_iff hc hx hy, commutes hc hx hy, associates hc hx hy hz⟩

/-- Three accumulators of the default capacity. -/
theorem reduce_capacity_iff_default :
    ∃ x y : MinKAccumulator, Fed K [10, 20, 30] x ∧ Fed K [5, 15, 25] y ∧
      RespectsCapacity K [10, 20, 30, 5, 15, 25] x y := by
  obtain ⟨x, hx⟩ := exists_fed K_pos [10, 20, 30]
  obtain ⟨y, hy⟩ := exists_fed K_pos [5, 15, 25]
  exact ⟨x, y, hx, hy, (reduce_capacity_iff K K_pos _ _ _ x y x hx hy hx).1.mpr rfl⟩

/-- **A capacity that is not respected.**  Of two accumulators of capacity three, the result has
capacity `K` and holds all six values. -/
theorem reduce_exceeds_capacity :
    ∃ x y merged : MinKAccumulator, Fed 3 [10, 20, 30] x ∧ Fed 3 [5, 15, 25] y ∧
      (MinKPolicy.reduce y).run x = .ok () merged ∧ merged.heap.capacity = K ∧
      merged.heap.size = 6 ∧ merged.hashes ≠ smallest 3 (x.hashes ∪ y.hashes) ∧
      ¬ RespectsCapacity 3 [10, 20, 30, 5, 15, 25] x y := by
  obtain ⟨x, hx⟩ := exists_fed (c := 3) (by decide) [10, 20, 30]
  obtain ⟨y, hy⟩ := exists_fed (c := 3) (by decide) [5, 15, 25]
  have hsx := hx.isSketch (by decide)
  have hsy := hy.isSketch (by decide)
  obtain ⟨merged, hrun, hmerged⟩ := hsx.reduce hsy
  have hsize : merged.heap.size = 6 := by
    rw [hmerged.size_eq]
    decide
  refine ⟨x, y, merged, hx, hy, hrun, hmerged.capacity, hsize, ?_, ?_⟩
  · intro heq
    have hcard := congrArg Finset.card heq
    rw [hmerged.hashes_eq, ← hmerged.toFinset_contents,
      Multiset.toFinset_card_of_nodup hmerged.nodup, MaxHeap.card_contents, hsize] at hcard
    have hle := card_smallest_le 3 (x.hashes ∪ y.hashes)
    omega
  · exact fun h => absurd ((respectsCapacity_iff (by decide) hx hy).mp h) (by decide)

end Dataprint
