import Dataprint.Foundations.Transition
import Mathlib.Data.Multiset.AddSub
import Mathlib.Order.Bounds.Defs
import Mathlib.Order.Lattice

/-!
# Priority Queues

What a priority queue is for, whatever represents it: it holds a multiset over a linear order and
gives out its maxima.

- `Step` says what each call does to the multiset and what it answers;
- `sorted_of_drained` — popping until nothing is left gives the elements in descending order.
-/

namespace Foundations.PriorityQueue

/-- The calls. -/
inductive Op (α : Type*) where
  | push (a : α)
  | pop
  | peek
  /-- one call for a `pop` and a `push` -/
  | replaceTop (a : α)
  | clear
  deriving DecidableEq

/-- What a call answers. -/
inductive Answer (α : Type*) where
  | done
  | value (a : α)
  | refused
  deriving DecidableEq

/-- The calls that need an element. -/
def Op.needsTop {α : Type*} : Op α → Bool
  | .push _ => false
  | .pop => true
  | .peek => true
  | .replaceTop _ => true
  | .clear => false

variable {α : Type*} [LinearOrder α]

/-- What a call does, labelled with its answer. -/
inductive Step : Multiset α → Op α × Answer α → Multiset α → Prop where
  | push (m : Multiset α) (a : α) : Step m (.push a, .done) (a ::ₘ m)
  | pop {m : Multiset α} {top : α} : IsGreatest {x | x ∈ m} top →
      Step m (.pop, .value top) (m.erase top)
  | peek {m : Multiset α} {top : α} : IsGreatest {x | x ∈ m} top → Step m (.peek, .value top) m
  | replaceTop {m : Multiset α} {top : α} (a : α) : IsGreatest {x | x ∈ m} top →
      Step m (.replaceTop a, .done) (a ::ₘ m.erase top)
  | clear (m : Multiset α) : Step m (.clear, .done) 0
  /-- without an element, nothing happens -/
  | refused {op : Op α} : op.needsTop = true → Step 0 (op, .refused) 0

variable (α) in
/-- A priority queue that starts out empty. -/
def system : TransitionSystem (Multiset α) (Op α × Answer α) where
  start := 0
  step := Step

/-- Pops that answer these values, one after another. -/
def pops {α : Type*} (values : List α) : List (Op α × Answer α) :=
  values.map fun a => (.pop, .value a)

/-- **Popping sorts**: until nothing is left, pops answer all elements in descending order. -/
theorem sorted_of_drained {m : Multiset α} {values : List α}
    (h : (system α).Path m (pops values) 0) :
    values.Pairwise (· ≥ ·) ∧ (values : Multiset α) = m := by
  induction values generalizing m with
  | nil =>
    cases h with
    | nil => exact ⟨.nil, rfl⟩
  | cons a values ih =>
    cases h with
    | cons hst hrest =>
      cases hst with
      | pop htop =>
        obtain ⟨hsorted, hvalues⟩ := ih hrest
        refine ⟨List.pairwise_cons.mpr ⟨fun b hb => ?_, hsorted⟩, ?_⟩
        · -- what is left was there before
          have hmem : b ∈ m.erase a := hvalues ▸ Multiset.mem_coe.mpr hb
          exact htop.2 (Multiset.mem_of_mem_erase hmem)
        · rw [← Multiset.cons_coe, hvalues]
          exact Multiset.cons_erase htop.1

end Foundations.PriorityQueue
