import Dataprint.MaxHeap
import Dataprint.Foundations.Mergeable
import Dataprint.Foundations.Smallest
import Mathlib.Data.List.AList
import Mathlib.Data.Multiset.Dedup
import Mathlib.Algebra.BigOperators.Group.Multiset.Basic

/-!
# Accumulation Policies

The pipeline is generic in what it computes from the emitted hashes
(`include/policies.h`): a policy names an accumulator and how to start it, feed it a
hash and merge two of them.

- `FingerprintPolicy` sums the hashes modulo `PRIME`;
- `MinKPolicy` keeps the `K` smallest distinct hashes in a max-heap, with a map of the
  values the heap holds (`seen`).

Both are instances of `Foundations.Mergeable`: `fingerprintPolicy_mergeable` against
the residue of the sum, `minKPolicy_mergeable` against the `K` smallest elements.
-/

namespace Dataprint

open Foundations

/-- The capacity of a sketch. -/
def K : ℕ := 20000

theorem K_pos : 0 < K := by decide

/-- What the pipeline is a template of. -/
structure Policy where
  Accumulator : Type
  init : Accumulator
  /-- feeds one hash to the accumulator in place -/
  accumulate : U128 → EStateM Exn Accumulator Unit
  /-- merges a local accumulator into the global one in place -/
  reduce : Accumulator → EStateM Exn Accumulator Unit

/-! ## FingerprintPolicy -/

namespace FingerprintPolicy

def init : U128 := 0

def accumulate (value : U128) : EStateM Exn U128 Unit :=
  modify fun acc => addMod acc value

def reduce (loc : U128) : EStateM Exn U128 Unit :=
  modify fun glob => addMod glob loc

end FingerprintPolicy

abbrev fingerprintPolicy : Policy where
  Accumulator := U128
  init := FingerprintPolicy.init
  accumulate := FingerprintPolicy.accumulate
  reduce := FingerprintPolicy.reduce

/-! ## MinKPolicy -/

/-- A max-heap and the map of the values it holds. -/
structure MinKAccumulator where
  heap : MaxHeap
  seen : AList fun _ : U128 => Bool

namespace MinKAccumulator

/-- The constructor with an explicit capacity. -/
def new (capacity : ℕ) : MinKAccumulator := ⟨MaxHeap.new capacity, ∅⟩

/-- Calls a heap method on the heap of an accumulator. -/
def onHeap {α : Type} (x : EStateM Exn MaxHeap α) : EStateM Exn MinKAccumulator α := fun acc =>
  match x.run acc.heap with
  | .ok a heap => .ok a { acc with heap := heap }
  | .error e heap => .error e { acc with heap := heap }

@[simp] theorem run_onHeap {α : Type} (x : EStateM Exn MaxHeap α) (acc : MinKAccumulator) :
    (onHeap x).run acc = match x.run acc.heap with
      | .ok a heap => .ok a { acc with heap := heap }
      | .error e heap => .error e { acc with heap := heap } := rfl

end MinKAccumulator

namespace MinKPolicy

open MinKAccumulator

/-- The default constructor, with capacity `K`. -/
def init : MinKAccumulator := .new K

def accumulate (h : U128) : EStateM Exn MinKAccumulator Unit := do
  if h ∈ (← get).seen then
    -- duplicate, skip
    return ()
  else if !(← get).heap.full then
    modify fun acc => { acc with heap := acc.heap.push h }
    modify fun acc => { acc with seen := acc.seen.insert h true }
  else if h < (← onHeap MaxHeap.peek) then
    -- remove the evicted value
    let evicted ← onHeap MaxHeap.peek
    modify fun acc => { acc with seen := acc.seen.erase evicted }
    onHeap (MaxHeap.replaceTop h)
    modify fun acc => { acc with seen := acc.seen.insert h true }

/-- The merged accumulator is a default one, whatever the capacity of its inputs. -/
def reduce (loc : MinKAccumulator) : EStateM Exn MinKAccumulator Unit := do
  let glob ← get
  -- both heaps go into one fresh accumulator
  let merge : EStateM Exn MinKAccumulator Unit := do
    forM glob.heap.data.toList accumulate
    forM loc.heap.data.toList accumulate
  match merge.run init with
  | .ok _ merged => set merged
  | .error e _ => throw e

end MinKPolicy

abbrev minKPolicy : Policy where
  Accumulator := MinKAccumulator
  init := MinKPolicy.init
  accumulate := MinKPolicy.accumulate
  reduce := MinKPolicy.reduce

/-! ## The fingerprint is the residue of the sum -/

/-- `acc` is the sum of the hashes modulo the prime. -/
def IsSum (hashes : Multiset U128) (acc : U128) : Prop :=
  acc.toNat = (hashes.map BitVec.toNat).sum % primeNat

/-- A sum is determined by the hashes. -/
theorem IsSum.unique {hashes : Multiset U128} {acc acc' : U128} (h : IsSum hashes acc)
    (h' : IsSum hashes acc') : acc = acc' :=
  BitVec.eq_of_toNat_eq (h.trans h'.symm)

theorem isSum_addMod {m n : Multiset U128} {a b : U128} (ha : IsSum m a) (hb : IsSum n b) :
    IsSum (m + n) (addMod a b) := by
  unfold IsSum at *
  rw [toNat_addMod, ha, hb, ← Nat.add_mod, Multiset.map_add, Multiset.sum_add]

/-- **The sum is mergeable**: grouping and order of the additions do not matter. -/
theorem fingerprintPolicy_mergeable :
    Mergeable FingerprintPolicy.init FingerprintPolicy.accumulate FingerprintPolicy.reduce
      IsSum where
  init := rfl
  accumulate {m s} a hs := by
    refine ⟨addMod s a, rfl, ?_⟩
    have hsum : (s.toNat + a.toNat) % primeNat =
        (a.toNat + (m.map BitVec.toNat).sum) % primeNat := by
      rw [show s.toNat = (m.map BitVec.toNat).sum % primeNat from hs, Nat.mod_add_mod, add_comm]
    rw [IsSum, toNat_addMod, Multiset.map_cons, Multiset.sum_cons, hsum]
  reduce {_ _ s t} hs ht := ⟨addMod s t, rfl, isSum_addMod hs ht⟩

/-! ## The sketch holds the smallest hashes -/

/-- An accumulator of capacity `c` that has seen exactly the values `values`: heap and map
hold the `c` smallest of them, each once. -/
structure IsSketch (c : ℕ) (values : Finset U128) (acc : MinKAccumulator) : Prop where
  isHeap : MaxHeap.IsHeap acc.heap.data
  capacity : acc.heap.capacity = c
  nodup : acc.heap.contents.Nodup
  mem_heap : ∀ x, x ∈ acc.heap.contents ↔ x ∈ smallest c values
  mem_seen : ∀ x, x ∈ acc.seen ↔ x ∈ smallest c values

namespace IsSketch

variable {c : ℕ} {values : Finset U128} {acc : MinKAccumulator}

theorem toFinset_contents (h : IsSketch c values acc) :
    acc.heap.contents.toFinset = smallest c values := by
  ext x
  rw [Multiset.mem_toFinset, h.mem_heap]

theorem size_eq (h : IsSketch c values acc) : acc.heap.size = min c values.card := by
  rw [← MaxHeap.card_contents, ← card_smallest, ← h.toFinset_contents,
    Multiset.toFinset_card_of_nodup h.nodup]

/-- A full heap has a top. -/
theorem size_pos (h : IsSketch c values acc) (hc : 0 < c) (hcard : c ≤ values.card) :
    0 < acc.heap.data.size := by
  have hsize : acc.heap.data.size = min c values.card := h.size_eq
  omega

/-- Only the `c` smallest values matter. -/
theorem congr (h : IsSketch c values acc) {values' : Finset U128}
    (heq : smallest c values = smallest c values') : IsSketch c values' acc where
  isHeap := h.isHeap
  capacity := h.capacity
  nodup := h.nodup
  mem_heap := heq ▸ h.mem_heap
  mem_seen := heq ▸ h.mem_seen

theorem full_iff (h : IsSketch c values acc) : acc.heap.full = true ↔ c ≤ values.card := by
  have hsize := h.size_eq
  have hcap := h.capacity
  simp only [MaxHeap.full, MaxHeap.size] at *
  rw [decide_eq_true_eq]
  omega

theorem new (c : ℕ) : IsSketch c ∅ (.new c) where
  isHeap := MaxHeap.isHeap_new c
  capacity := rfl
  nodup := by simp [MinKAccumulator.new]
  mem_heap := by simp [MinKAccumulator.new]
  mem_seen := by simp [MinKAccumulator.new]

/-- What one call of `accumulate` does to a sketch, by the branch it takes. -/
theorem accumulate_cases (h : IsSketch c values acc) (hc : 0 < c) (v : U128) :
    (v ∈ acc.seen ∧ (MinKPolicy.accumulate v).run acc = .ok () acc) ∨
    (v ∉ acc.seen ∧ values.card < c ∧ (MinKPolicy.accumulate v).run acc =
      .ok () ⟨acc.heap.push v, acc.seen.insert v true⟩) ∨
    (v ∉ acc.seen ∧ c ≤ values.card ∧ MaxHeap.entry acc.heap.data 0 ≤ v ∧
      (MinKPolicy.accumulate v).run acc = .ok () acc) ∨
    (v ∉ acc.seen ∧ c ≤ values.card ∧ v < MaxHeap.entry acc.heap.data 0 ∧
      ∃ heap, (MaxHeap.replaceTop v).run acc.heap = .ok () heap ∧
        (MinKPolicy.accumulate v).run acc = .ok ()
          ⟨heap, (acc.seen.erase (MaxHeap.entry acc.heap.data 0)).insert v true⟩) := by
  by_cases hseen : v ∈ acc.seen
  · exact .inl ⟨hseen, by simp [MinKPolicy.accumulate, hseen]⟩
  right
  by_cases hfull : acc.heap.full = true
  · have hcard := h.full_iff.mp hfull
    have hne := h.size_pos hc hcard
    have hpeek := MaxHeap.peek_of_nonempty hne
    right
    by_cases hlt : v < MaxHeap.entry acc.heap.data 0
    · obtain ⟨heap, hrun, -⟩ := MaxHeap.replaceTop_of_isHeap h.isHeap hne v
      refine .inr ⟨hseen, hcard, hlt, heap, hrun, ?_⟩
      simp [MinKPolicy.accumulate, hseen, hfull, hpeek, hlt, hrun]
    · refine .inl ⟨hseen, hcard, not_lt.mp hlt, ?_⟩
      simp [MinKPolicy.accumulate, hseen, hfull, hpeek, hlt]
  · refine .inl ⟨hseen, ?_, ?_⟩
    · rw [h.full_iff] at hfull
      omega
    · simp [MinKPolicy.accumulate, hseen, hfull]

/-- `accumulate` never throws on a sketch and keeps it one of all values seen so far.  A value
that was evicted and comes again is refused, because it lies above the whole heap by then. -/
theorem accumulate (h : IsSketch c values acc) (hc : 0 < c) (v : U128) :
    ∃ acc', (MinKPolicy.accumulate v).run acc = .ok () acc' ∧
      IsSketch c (insert v values) acc' := by
  have hmax : ∀ x ∈ smallest c values, x ≤ MaxHeap.entry acc.heap.data 0 :=
    fun x hx => h.isHeap.le_top ((h.mem_heap x).mpr hx)
  rcases h.accumulate_cases hc v with ⟨hseen, hrun⟩ | ⟨hseen, hcard, hrun⟩ |
    ⟨hseen, hcard, hle, hrun⟩ | ⟨hseen, hcard, hlt, heap, htop, hrun⟩
  · -- duplicate: the value is among the smallest already
    have hv : v ∈ values := smallest_subset c values ((h.mem_seen v).mp hseen)
    exact ⟨acc, hrun, by rwa [Finset.insert_eq_of_mem hv]⟩
  · -- room left: nothing has been dropped so far
    have hold : smallest c values = values := smallest_of_card_le hcard.le
    have hnew : smallest c (insert v values) = insert v values :=
      smallest_of_card_le ((Finset.card_insert_le _ _).trans hcard)
    have hv : v ∉ acc.heap.contents := by rwa [h.mem_heap, ← h.mem_seen]
    refine ⟨_, hrun, MaxHeap.push_isHeap h.isHeap v, h.capacity, ?_, ?_, ?_⟩
    · rw [MaxHeap.contents_push, Multiset.nodup_cons]
      exact ⟨hv, h.nodup⟩
    · intro x
      rw [MaxHeap.contents_push, Multiset.mem_cons, hnew, Finset.mem_insert, h.mem_heap, hold]
    · intro x
      rw [AList.mem_insert, hnew, Finset.mem_insert, h.mem_seen, hold]
  · -- full and too large: the value lies above everything kept
    rw [h.mem_seen] at hseen
    refine ⟨acc, hrun, h.congr (Eq.symm ?_)⟩
    exact smallest_insert_of_ge hcard hseen fun x hx => (hmax x hx).trans hle
  · -- full and small enough: the maximum is evicted from heap and map
    rw [h.mem_seen] at hseen
    have hne := h.size_pos hc hcard
    have hmem := (h.mem_heap _).mp (MaxHeap.top_mem_contents hne)
    have hnew := smallest_insert_of_lt hcard hseen hmem hmax hlt
    obtain ⟨heap', htop', hheap, hcap, hcont⟩ := MaxHeap.replaceTop_of_isHeap h.isHeap hne v
    cases htop.symm.trans htop'
    have hv : v ∉ acc.heap.contents := by rwa [h.mem_heap]
    refine ⟨_, hrun, hheap, hcap.trans h.capacity, ?_, ?_, ?_⟩
    · rw [hcont, Multiset.nodup_cons]
      exact ⟨fun hmem => hv (Multiset.mem_of_mem_erase hmem), h.nodup.erase _⟩
    · intro x
      rw [hcont, Multiset.mem_cons, h.nodup.mem_erase_iff, h.mem_heap, hnew, Finset.mem_insert,
        Finset.mem_erase]
    · intro x
      rw [AList.mem_insert, AList.mem_erase, h.mem_seen, hnew, Finset.mem_insert, Finset.mem_erase]

/-- Feeding a list keeps a sketch of everything. -/
theorem accumulate_list (h : IsSketch c values acc) (hc : 0 < c) (l : List U128) :
    ∃ acc', (forM l MinKPolicy.accumulate).run acc = .ok () acc' ∧
      IsSketch c (values ∪ l.toFinset) acc' := by
  induction l generalizing values acc with
  | nil => exact ⟨acc, rfl, by simpa using h⟩
  | cons v l ih =>
    obtain ⟨acc₁, hrun₁, h₁⟩ := h.accumulate hc v
    obtain ⟨acc₂, hrun₂, h₂⟩ := ih h₁
    refine ⟨acc₂, ?_, ?_⟩
    · simp [hrun₁, hrun₂]
    · rwa [List.toFinset_cons, Finset.union_insert, ← Finset.insert_union]

/-- `reduce` merges two sketches into one of capacity `K`. -/
theorem reduce {d : ℕ} {values' : Finset U128} {acc' : MinKAccumulator}
    (h : IsSketch c values acc) (h' : IsSketch d values' acc') :
    ∃ merged, (MinKPolicy.reduce acc').run acc = .ok () merged ∧
      IsSketch K (smallest c values ∪ smallest d values') merged := by
  have hfin : ∀ {c values acc}, IsSketch c values acc →
      acc.heap.data.toList.toFinset = smallest c values := by
    intro c values acc h
    rw [← h.toFinset_contents]
    rfl
  obtain ⟨acc₁, hrun₁, h₁⟩ := (IsSketch.new K).accumulate_list K_pos acc.heap.data.toList
  obtain ⟨acc₂, hrun₂, h₂⟩ := h₁.accumulate_list K_pos acc'.heap.data.toList
  rw [hfin h, hfin h', Finset.empty_union] at h₂
  refine ⟨acc₂, ?_, h₂⟩
  simp only [MinKPolicy.reduce, MinKPolicy.init, EStateM.run_bind, EStateM.run_get, hrun₁, hrun₂,
    EStateM.run_set]

end IsSketch

/-- **The sketch is mergeable**: at capacity `K`, an accumulator stands for the set of all
hashes it has seen, through their `K` smallest. -/
theorem minKPolicy_mergeable :
    Mergeable MinKPolicy.init MinKPolicy.accumulate MinKPolicy.reduce
      fun hashes acc => IsSketch K hashes.toFinset acc where
  init := IsSketch.new K
  accumulate {m s} a hs := by
    rw [Multiset.toFinset_cons]
    exact hs.accumulate K_pos a
  reduce {m n s t} hs ht := by
    obtain ⟨merged, hrun, h⟩ := hs.reduce ht
    refine ⟨merged, hrun, h.congr ?_⟩
    rw [Multiset.toFinset_add]
    exact smallest_union K _ _

/-! ## Any distribution over workers -/

/-- `acc` is a result of feeding each part of a stream to an accumulator of its own and
reducing all of them, one after another, into a fresh one. -/
def Distributed (P : Policy) (parts : List (List U128)) (acc : P.Accumulator) : Prop :=
  ∃ accs, List.Forall₂ (fun part s => (forM part P.accumulate).run P.init = .ok () s) parts accs ∧
    (forM accs P.reduce).run P.init = .ok () acc

/-- A mergeable policy never fails on a distribution, and its result stands for the stream. -/
theorem exists_distributed {P : Policy} {R : Multiset U128 → P.Accumulator → Prop}
    (hP : Mergeable P.init P.accumulate P.reduce R) (parts : List (List U128)) :
    ∃ acc, Distributed P parts acc := by
  obtain ⟨accs, hruns, -⟩ := hP.accumulate_parts parts
  obtain ⟨acc, hrun, -⟩ := hP.reduce_distributed hruns
  exact ⟨acc, accs, hruns, hrun⟩

/-- A distribution over workers is a grouping. -/
theorem Distributed.exists_grouping {P : Policy} {parts : List (List U128)} {acc : P.Accumulator}
    (h : Distributed P parts acc) :
    ∃ g : Grouping U128, g.values = parts.flatten ∧
      g.run P.init P.accumulate P.reduce = .ok () acc := by
  obtain ⟨accs, hruns, hrun⟩ := h
  -- the loop over the results merges into what it has so far
  suffices hloop : ∀ (g : Grouping U128) (s : P.Accumulator),
      g.run P.init P.accumulate P.reduce = .ok () s → (forM accs P.reduce).run s = .ok () acc →
      ∃ g' : Grouping U128, g'.values = g.values ++ parts.flatten ∧
        g'.run P.init P.accumulate P.reduce = .ok () acc from hloop .fresh _ rfl hrun
  clear hrun
  induction hruns with
  | nil =>
    intro g s hg hrun
    cases hrun
    exact ⟨g, by simp, hg⟩
  | @cons part t parts accs hpart _ ih =>
    intro g s hg hrun
    rw [List.forM_cons, EStateM.run_bind] at hrun
    cases hreduce : (P.reduce t).run s with
    | error e s' => simp [hreduce] at hrun
    | ok u s' =>
      simp only [hreduce] at hrun
      have hfed : (Grouping.feedList .fresh part).run P.init P.accumulate P.reduce = .ok () t :=
        Grouping.run_feedList rfl hpart
      obtain ⟨g', hvalues, hg'⟩ := ih (.merge g (Grouping.feedList .fresh part)) s'
        (by simp only [Grouping.run, hg, hfed, hreduce]) hrun
      refine ⟨g', ?_, hg'⟩
      rw [hvalues, Grouping.values, Grouping.values_feedList, List.flatten_cons, List.append_assoc]
      rfl

theorem Distributed.represents {P : Policy} {R : Multiset U128 → P.Accumulator → Prop}
    (hP : Mergeable P.init P.accumulate P.reduce R) {parts : List (List U128)}
    {acc : P.Accumulator} (h : Distributed P parts acc) :
    R (parts.flatten : Multiset U128) acc := by
  obtain ⟨g, hvalues, hrun⟩ := h.exists_grouping
  obtain ⟨acc', hrun', hrep⟩ := hP.run_grouping g
  cases hrun.symm.trans hrun'
  rwa [hvalues] at hrep

/-- The set a sketch holds. -/
def MinKAccumulator.hashes (acc : MinKAccumulator) : Finset U128 :=
  acc.heap.data.toList.toFinset

theorem IsSketch.hashes_eq {c : ℕ} {values : Finset U128} {acc : MinKAccumulator}
    (h : IsSketch c values acc) : acc.hashes = smallest c values :=
  h.toFinset_contents

/-- **`accumulate` keeps exactly the smallest distinct values, at every capacity.**  It throws at
no value of a sequence.  After the sequence, as after each of its prefixes, the array is a heap
without duplicates, the map has exactly the elements of the heap as keys, there are as many of
them as the capacity allows, and each of them lies below every value that is left out. -/
theorem accumulate_keeps_smallest (c : ℕ) (hc : 1 ≤ c) (values : List U128) :
    ∃ acc : MinKAccumulator, (forM values MinKPolicy.accumulate).run (.new c) = .ok () acc ∧
      MaxHeap.IsHeap acc.heap.data ∧
      acc.heap.data.toList.Nodup ∧
      (∀ x, x ∈ acc.seen ↔ x ∈ acc.heap.data.toList) ∧
      acc.heap.size = min c values.toFinset.card ∧
      ∀ x ∈ acc.heap.data.toList,
        x ∈ values ∧ ∀ y ∈ values, y ∉ acc.heap.data.toList → x < y := by
  obtain ⟨acc, hrun, h⟩ := (IsSketch.new c).accumulate_list hc values
  rw [Finset.empty_union] at h
  have hmem : ∀ x, x ∈ acc.heap.data.toList ↔ x ∈ smallest c values.toFinset := h.mem_heap
  refine ⟨acc, hrun, h.isHeap, h.nodup, ?_, h.size_eq, ?_⟩
  · intro x
    rw [h.mem_seen, hmem]
  · intro x hx
    rw [hmem] at hx
    refine ⟨List.mem_toFinset.mp (smallest_subset c _ hx), fun y hy hout => ?_⟩
    rw [hmem] at hout
    exact lt_of_mem_smallest hx (List.mem_toFinset.mpr hy) hout

/-- At capacity two, with a value that is evicted and comes again. -/
theorem accumulate_keeps_smallest_two :
    ∃ acc : MinKAccumulator,
      (forM [5, 3, 1, 5] MinKPolicy.accumulate).run (.new 2) = .ok () acc ∧ acc.heap.size = 2 := by
  obtain ⟨acc, hrun, -, -, -, hsize, -⟩ := accumulate_keeps_smallest 2 (by decide) [5, 3, 1, 5]
  exact ⟨acc, hrun, hsize.trans (by decide)⟩

/-- **The sketch is the bottom-`K` set.**  However the emitted hashes are distributed over
workers and ordered within each of them, the reduced accumulator exists, its heap holds each
of the `K` smallest distinct hashes once and its map has exactly these keys; a second stream
of the same hashes, reordered or with repetitions, gives the same set. -/
theorem distributed_sketch_bottomK (emitted : List U128) (parts : List (List U128))
    (hparts : parts.flatten.Perm emitted) :
    (∃ acc, Distributed minKPolicy parts acc) ∧
    ∀ acc : MinKAccumulator, Distributed minKPolicy parts acc →
      acc.heap.data.toList.Nodup ∧
      acc.hashes = smallest K emitted.toFinset ∧
      acc.heap.size = min K emitted.toFinset.card ∧
      (∀ x, x ∈ acc.seen ↔ x ∈ smallest K emitted.toFinset) ∧
      ∀ (emitted' : List U128) (parts' : List (List U128)) (acc' : MinKAccumulator),
        parts'.flatten.Perm emitted' → (∀ x, x ∈ emitted' ↔ x ∈ emitted) →
        Distributed minKPolicy parts' acc' → acc'.hashes = acc.hashes := by
  have hset : ∀ {l : List U128} {ps : List (List U128)}, ps.flatten.Perm l →
      (ps.flatten : Multiset U128).toFinset = l.toFinset := by
    intro l ps hp
    rw [Multiset.coe_eq_coe.mpr hp]
    rfl
  refine ⟨exists_distributed minKPolicy_mergeable parts, fun acc hacc => ?_⟩
  have hsketch : IsSketch K emitted.toFinset acc := by
    have hrep := hacc.represents minKPolicy_mergeable
    rwa [hset hparts] at hrep
  refine ⟨hsketch.nodup, hsketch.hashes_eq, hsketch.size_eq, hsketch.mem_seen, ?_⟩
  intro emitted' parts' acc' hparts' hsame hacc'
  have hrep' := hacc'.represents minKPolicy_mergeable
  rw [hset hparts'] at hrep'
  have hfin : emitted'.toFinset = emitted.toFinset := by
    ext x
    rw [List.mem_toFinset, List.mem_toFinset, hsame]
  rw [hrep'.hashes_eq, hsketch.hashes_eq, hfin]

/-- Two workers, one repeated hash: the sketch holds the three distinct ones. -/
theorem distributed_sketch_two_workers :
    ∃ acc : MinKAccumulator, Distributed minKPolicy [[3, 1], [2, 1]] acc ∧ acc.heap.size = 3 := by
  have h := distributed_sketch_bottomK [1, 2, 1, 3] [[3, 1], [2, 1]] (by decide)
  obtain ⟨acc, hacc⟩ := h.1
  exact ⟨acc, hacc, (h.2 acc hacc).2.2.1.trans (by decide)⟩

end Dataprint
