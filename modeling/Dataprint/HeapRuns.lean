import Dataprint.MaxHeap
import Dataprint.Foundations.PriorityQueue

/-!
# Runs of the Max-Heap

Any sequence of calls of the methods of `MaxHeap` (`src/maxheap.cpp`), starting from an empty heap
and going on after a call that throws.

- `pop_of_isHeap` completes the specifications of the methods;
- `queueRefinement` — after every call the vector is a heap, and its contents are those of a
  priority queue under the same calls with the same answers;
- `run_isPriorityQueue` puts together what this means for a run, and for popping until nothing is
  left.
-/

namespace Dataprint

open Foundations

namespace MaxHeap

open PriorityQueue (Op Answer pops)

/-! ## Popping -/

/-- With the last element moved to the front, a vector has lost its first one. -/
theorem coe_pop_set_first {data : Array U128} (hne : 0 < data.size) :
    ((data.set! 0 data.back!).pop.toList : Multiset U128) =
      (data.toList : Multiset U128).erase (entry data 0) := by
  obtain ⟨x, xs, hl⟩ : ∃ x xs, data = (x :: xs).toArray := by
    obtain ⟨l⟩ := data
    cases l with
    | nil => simp at hne
    | cons x xs => exact ⟨x, xs, rfl⟩
  subst hl
  rcases List.eq_nil_or_concat xs with rfl | ⟨ys, y, rfl⟩
  · -- a single element is gone
    simp [entry]
  · have hlast : (x :: (ys ++ [y])).getLast? = some y := List.getLast?_concat (l := x :: ys)
    have hinit : ((y :: ys) ++ [y]).dropLast = y :: ys := List.dropLast_concat
    rw [List.cons_append] at hinit
    simpa [entry, Array.back!_eq_back?, hlast, hinit] using (List.perm_append_singleton y ys).symm

/-- Only the edges below the root of such a vector are open. -/
theorem downOrdered_pop_set_first {data : Array U128} (h : IsHeap data) :
    DownOrdered (data.set! 0 data.back!).pop.size (entry (data.set! 0 data.back!).pop) 0 := by
  have hsize : (data.set! 0 data.back!).pop.size = data.size - 1 := by simp
  rw [hsize]
  apply (HeapOrdered.mono h (Nat.sub_le _ 1)).downOrdered_root
  intro j hpos hj
  have hlt : j < data.size := by omega
  rw [entry_eq_getElem hlt, entry_eq_getElem (by rwa [hsize]), Array.getElem_pop]
  exact (Array.getElem_setIfInBounds_ne hlt hpos.ne).symm

/-- `pop` on a heap with elements takes a maximum out. -/
theorem pop_of_isHeap {h : MaxHeap} (hh : IsHeap h.data) (hne : 0 < h.data.size) :
    ∃ h', pop.run h = .ok (entry h.data 0) h' ∧ IsHeap h'.data ∧ h'.capacity = h.capacity ∧
      h'.contents = h.contents.erase (entry h.data 0) := by
  have hempty : h.empty = false := by simpa [empty, Array.isEmpty] using hne.ne'
  have hcontents := coe_pop_set_first hne
  by_cases hrest : 0 < (h.data.set! 0 h.data.back!).pop.size
  · refine ⟨{ h with data := siftDown (h.data.set! 0 h.data.back!).pop 0 }, ?_, ?_, rfl, ?_⟩
    · have hrest' : empty ⟨(h.data.setIfInBounds 0 h.data.back!).pop, h.capacity⟩ = false := by
        simpa [empty, Array.isEmpty] using hrest.ne'
      simp [pop, hempty, hrest', entry, -bind_pure_comp]
    · exact siftDown_heapOrdered _ _ hrest (downOrdered_pop_set_first hh)
    · rw [contents, contents, ← hcontents]
      exact Multiset.coe_eq_coe.mpr (siftDown_perm _ _).toList
  · -- the only element is gone, and nothing is sifted
    refine ⟨{ h with data := (h.data.set! 0 h.data.back!).pop }, ?_, ?_, rfl, hcontents⟩
    · have hrest' : empty ⟨(h.data.setIfInBounds 0 h.data.back!).pop, h.capacity⟩ = true := by
        simpa [empty, Array.isEmpty] using Nat.eq_zero_of_not_pos hrest
      simp [pop, hempty, hrest', entry, -bind_pure_comp]
    · exact fun j _ hj => absurd (Nat.zero_lt_of_lt hj) hrest

/-! ## Calls -/

/-- Carries out a call. -/
def call : Op U128 → EStateM Exn MaxHeap (Option U128)
  | .push v => do
    modify fun h => h.push v
    return none
  | .pop => do
    return some (← pop)
  | .peek => do
    return some (← peek)
  | .replaceTop v => do
    replaceTop v
    return none
  | .clear => do
    modify clear
    return none

/-- A call, labelled with what it returns or throws.  After an exception the heap is used on. -/
def Step (h : MaxHeap) (l : Op U128 × Except Exn (Option U128)) (h' : MaxHeap) : Prop :=
  match (call l.1).run h with
  | .ok a h₁ => l.2 = .ok a ∧ h' = h₁
  | .error e h₁ => l.2 = .error e ∧ h' = h₁

/-- A heap that starts out empty, under any calls. -/
def system (capacity : ℕ) : TransitionSystem MaxHeap (Op U128 × Except Exn (Option U128)) where
  start := new capacity
  step := Step

/-- What is returned or thrown, as the answer of a priority queue. -/
def answer : Except Exn (Option U128) → Answer U128
  | .ok none => .done
  | .ok (some v) => .value v
  | .error _ => .refused

section Step

variable {h h' h₁ : MaxHeap} {op : Op U128} {outcome : Except Exn (Option U128)}

theorem step_iff_of_ok {a : Option U128} (hrun : (call op).run h = .ok a h₁) :
    Step h (op, outcome) h' ↔ outcome = .ok a ∧ h' = h₁ := by
  simp only [Step, hrun]

theorem step_iff_of_error {e : Exn} (hrun : (call op).run h = .error e h₁) :
    Step h (op, outcome) h' ↔ outcome = .error e ∧ h' = h₁ := by
  simp only [Step, hrun]

/-- Without elements, the methods that need one throw and leave the heap as it is. -/
theorem calls_of_empty (he : h.empty = true) :
    pop.run h = .error (.outOfRange "MaxHeap::pop() called on empty heap") h ∧
    peek.run h = .error (.outOfRange "MaxHeap::peek() called on empty heap") h ∧
    ∀ v, (replaceTop v).run h =
      .error (.outOfRange "MaxHeap::replace_top() called on empty heap") h := by
  refine ⟨?_, ?_, fun v => ?_⟩
  · simp [pop, he, -bind_pure_comp]
  · simp [peek, he, -bind_pure_comp]
  · simp [replaceTop, he, -bind_pure_comp]

theorem call_of_empty (he : h.empty = true) (hop : op.needsTop = true) :
    ∃ what, (call op).run h = .error (.outOfRange what) h := by
  obtain ⟨hpop, hpeek, hreplace⟩ := calls_of_empty he
  cases op with
  | push v => cases hop
  | pop =>
    refine ⟨"MaxHeap::pop() called on empty heap", ?_⟩
    simp [call, hpop, -bind_pure_comp]
  | peek =>
    refine ⟨"MaxHeap::peek() called on empty heap", ?_⟩
    simp [call, hpeek, -bind_pure_comp]
  | replaceTop v =>
    refine ⟨"MaxHeap::replace_top() called on empty heap", ?_⟩
    simp [call, hreplace v, -bind_pure_comp]
  | clear => cases hop

theorem contents_of_empty (he : h.empty = true) : h.contents = 0 := by
  have hdata : h.data = #[] := by simpa [empty] using he
  simp [contents, hdata]

theorem size_pos_of_not_empty (he : ¬ h.empty = true) : 0 < h.data.size := by
  rw [Nat.pos_iff_ne_zero]
  simpa [empty, Array.isEmpty] using he

/-- The first entry of a heap is a greatest element of its contents. -/
theorem IsHeap.isGreatest_top (hh : IsHeap h.data) (hne : 0 < h.data.size) :
    IsGreatest {x | x ∈ h.contents} (entry h.data 0) :=
  ⟨top_mem_contents hne, fun _ hx => hh.le_top hx⟩

/-- **A call keeps the heap order and does what a priority queue does.** -/
theorem Step.queueStep (hh : IsHeap h.data) (hstep : Step h (op, outcome) h') :
    IsHeap h'.data ∧ h'.capacity = h.capacity ∧
      PriorityQueue.Step h.contents (op, answer outcome) h'.contents := by
  by_cases hthrows : h.empty = true ∧ op.needsTop = true
  · -- an exception leaves the heap empty, where a queue refuses
    obtain ⟨what, hrun⟩ := call_of_empty hthrows.1 hthrows.2
    obtain ⟨rfl, rfl⟩ := (step_iff_of_error hrun).mp hstep
    rw [contents_of_empty hthrows.1]
    exact ⟨hh, rfl, .refused hthrows.2⟩
  have hne : op.needsTop = true → 0 < h.data.size :=
    fun hop => size_pos_of_not_empty fun he => hthrows ⟨he, hop⟩
  cases op with
  | push v =>
    have hcall : (call (.push v)).run h = .ok none (h.push v) := rfl
    obtain ⟨rfl, rfl⟩ := (step_iff_of_ok hcall).mp hstep
    rw [contents_push]
    exact ⟨push_isHeap hh v, rfl, .push _ v⟩
  | pop =>
    obtain ⟨h₁, hrun, hh₁, hcap, hcont⟩ := pop_of_isHeap hh (hne rfl)
    have hcall : (call .pop).run h = .ok (some (entry h.data 0)) h₁ := by
      simp [call, hrun, -bind_pure_comp]
    obtain ⟨rfl, rfl⟩ := (step_iff_of_ok hcall).mp hstep
    rw [hcont]
    exact ⟨hh₁, hcap, .pop (hh.isGreatest_top (hne rfl))⟩
  | peek =>
    have hcall : (call .peek).run h = .ok (some (entry h.data 0)) h := by
      simp [call, peek_of_nonempty (hne rfl), -bind_pure_comp]
    obtain ⟨rfl, rfl⟩ := (step_iff_of_ok hcall).mp hstep
    exact ⟨hh, rfl, .peek (hh.isGreatest_top (hne rfl))⟩
  | replaceTop v =>
    obtain ⟨h₁, hrun, hh₁, hcap, hcont⟩ := replaceTop_of_isHeap hh (hne rfl) v
    have hcall : (call (.replaceTop v)).run h = .ok none h₁ := by
      simp [call, hrun, -bind_pure_comp]
    obtain ⟨rfl, rfl⟩ := (step_iff_of_ok hcall).mp hstep
    rw [hcont]
    exact ⟨hh₁, hcap, .replaceTop v (hh.isGreatest_top (hne rfl))⟩
  | clear =>
    have hcall : (call .clear).run h = .ok none h.clear := rfl
    obtain ⟨rfl, rfl⟩ := (step_iff_of_ok hcall).mp hstep
    exact ⟨isHeap_new h.capacity, rfl, .clear _⟩

end Step

/-! ## Runs -/

/-- Any calls can be made. -/
theorem exists_run (capacity : ℕ) (ops : List (Op U128)) :
    ∃ tr h, (system capacity).Run tr h ∧ tr.map Prod.fst = ops := by
  induction ops using List.reverseRecOn with
  | nil => exact ⟨[], new capacity, .start, rfl⟩
  | append_singleton ops op ih =>
    obtain ⟨tr, h, hrun, rfl⟩ := ih
    rcases hcall : (call op).run h with ⟨a, h₁⟩ | ⟨e, h₁⟩
    · exact ⟨tr ++ [(op, .ok a)], h₁, hrun.snoc ((step_iff_of_ok hcall).mpr ⟨rfl, rfl⟩),
        List.map_append⟩
    · exact ⟨tr ++ [(op, .error e)], h₁, hrun.snoc ((step_iff_of_error hcall).mpr ⟨rfl, rfl⟩),
        List.map_append⟩

/-- The heap, seen as a priority queue. -/
def queueRefinement (capacity : ℕ) :
    TransitionSystem.Refinement (system capacity) (PriorityQueue.system U128) where
  abs := contents
  label l := some (l.1, answer l.2)
  inv h := IsHeap h.data ∧ h.capacity = capacity
  inv_start := ⟨isHeap_new capacity, rfl⟩
  abs_start := contents_new capacity
  inv_step hinv hst := by
    obtain ⟨hh, hcap, -⟩ := Step.queueStep hinv.1 hst
    exact ⟨hh, hcap.trans hinv.2⟩
  abs_step hinv hst := (Step.queueStep hinv.1 hst).2.2

/-- Pops that return these values, one after another. -/
def popped (values : List U128) : List (Op U128 × Except Exn (Option U128)) :=
  values.map fun v => (.pop, .ok (some v))

/-- A heap can be popped until it is empty. -/
theorem exists_drained {capacity : ℕ} {h : MaxHeap} (hh : IsHeap h.data) :
    ∃ values h', (system capacity).Path h (popped values) h' ∧ h'.empty = true := by
  induction hn : h.size generalizing h with
  | zero => exact ⟨[], h, .nil h, by simpa [empty, size] using hn⟩
  | succ n ih =>
    have hne : 0 < h.data.size := by
      rw [show h.data.size = n + 1 from hn]
      exact Nat.succ_pos n
    obtain ⟨h₁, hrun, hh₁, -, hcont⟩ := pop_of_isHeap hh hne
    have hcall : (call .pop).run h = .ok (some (entry h.data 0)) h₁ := by
      simp [call, hrun, -bind_pure_comp]
    -- one element less
    have hsize : h₁.size = n := by
      rw [← card_contents, hcont, Multiset.card_erase_of_mem (top_mem_contents hne),
        card_contents, hn]
      rfl
    obtain ⟨values, h', hpath, hempty⟩ := ih hh₁ hsize
    exact ⟨entry h.data 0 :: values, h',
      .cons ((step_iff_of_ok hcall).mpr ⟨rfl, rfl⟩) hpath, hempty⟩

/-- **`MaxHeap` is a priority queue over every run.**  After every sequence of calls the vector is a
heap of the original capacity, and its contents are what a priority queue holds after the same
calls with the same answers, where exceptions count as refusals.  An empty heap refuses by throwing
and stays as it is.  It is possible to pop until the heap is empty, and this always gives the
contents in descending order. -/
theorem run_isPriorityQueue (capacity : ℕ) (tr : List (Op U128 × Except Exn (Option U128)))
    (h : MaxHeap) (hrun : (system capacity).Run tr h) :
    IsHeap h.data ∧ h.capacity = capacity ∧
    (PriorityQueue.system U128).Run (tr.map fun l => (l.1, answer l.2)) h.contents ∧
    (h.empty = true →
      pop.run h = .error (.outOfRange "MaxHeap::pop() called on empty heap") h ∧
      peek.run h = .error (.outOfRange "MaxHeap::peek() called on empty heap") h ∧
      ∀ v, (replaceTop v).run h =
        .error (.outOfRange "MaxHeap::replace_top() called on empty heap") h) ∧
    (∃ values h', (system capacity).Path h (popped values) h' ∧ h'.empty = true) ∧
    ∀ values h', (system capacity).Path h (popped values) h' → h'.empty = true →
      values.Pairwise (· ≥ ·) ∧ (values : Multiset U128) = h.contents := by
  have hinv := (queueRefinement capacity).inv_run hrun
  have habs := (queueRefinement capacity).run hrun
  have hlabels : tr.filterMap (queueRefinement capacity).label =
      tr.map fun l => (l.1, answer l.2) := congrFun List.filterMap_eq_map' tr
  rw [hlabels] at habs
  refine ⟨hinv.1, hinv.2, habs, calls_of_empty, exists_drained hinv.1, ?_⟩
  intro values h' hpath hempty
  have hpops := (queueRefinement capacity).path hinv hpath
  have hanswers : (popped values).filterMap (queueRefinement capacity).label = pops values := by
    rw [popped, List.filterMap_map]
    exact congrFun List.filterMap_eq_map' values
  rw [hanswers] at hpops
  have hzero : (queueRefinement capacity).abs h' = 0 := contents_of_empty hempty
  rw [hzero] at hpops
  exact PriorityQueue.sorted_of_drained hpops

theorem run_isPriorityQueue_throws_and_pops :
    IsHeap #[3] ∧
      (PriorityQueue.system U128).Run
        [(.pop, .refused), (.push 3, .done), (.push 5, .done), (.pop, .value 5)]
        ([3] : List U128) := by
  let tr : List (Op U128 × Except Exn (Option U128)) :=
    [(.pop, .error (.outOfRange "MaxHeap::pop() called on empty heap")), (.push 3, .ok none),
      (.push 5, .ok none), (.pop, .ok (some 5))]
  have hpush : push (new 2) 3 = ⟨#[3], 2⟩ := by decide +kernel
  have hpush' : push ⟨#[3], 2⟩ 5 = ⟨#[5, 3], 2⟩ := by decide +kernel
  have hdown : siftDown #[3#128] 0 = #[3] := by decide +kernel
  have hpop : (call .pop).run ⟨#[5, 3], 2⟩ = .ok (some 5) ⟨#[3], 2⟩ := by
    simp [call, pop, empty, hdown, -bind_pure_comp]
  have hthrows : (system 2).Run (tr.take 1) (new 2) :=
    TransitionSystem.Run.start.snoc ⟨rfl, rfl⟩
  have hpushed : (system 2).Run (tr.take 2) ⟨#[3], 2⟩ := hthrows.snoc ⟨rfl, hpush.symm⟩
  have hpushed' : (system 2).Run (tr.take 3) ⟨#[5, 3], 2⟩ := hpushed.snoc ⟨rfl, hpush'.symm⟩
  have hrun : (system 2).Run tr ⟨#[3], 2⟩ :=
    hpushed'.snoc ((step_iff_of_ok hpop).mpr ⟨rfl, rfl⟩)
  have h := run_isPriorityQueue 2 tr ⟨#[3], 2⟩ hrun
  exact ⟨h.1, h.2.2.1⟩

end MaxHeap

end Dataprint
