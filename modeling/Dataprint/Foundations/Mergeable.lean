import Mathlib.Algebra.BigOperators.Group.Multiset.Basic

/-!
# Mergeable Summaries

A summary of a stream is kept in an accumulator: it starts at `init`, `accumulate`
adds one value and `reduce` merges another accumulator into it.  Both operations may
fail, so they run in `EStateM`.

`Mergeable` says what an accumulator stands for: a relation `Represents` to the
multiset of values it has seen, which both operations respect without failing.  From
these three facts alone it follows that *any* split of a stream over *any* number of
accumulators, each fed in any order, merges into an accumulator of the whole multiset
(`Mergeable.reduce_distributed`), and so does any other grouping (`Mergeable.run_grouping`).
-/

namespace Foundations

variable {ε σ α : Type}

/-- Both operations succeed on accumulators that represent a multiset, and keep track of it. -/
structure Mergeable (init : σ) (accumulate : α → EStateM ε σ Unit) (reduce : σ → EStateM ε σ Unit)
    (Represents : Multiset α → σ → Prop) : Prop where
  init : Represents 0 init
  accumulate : ∀ {m s} (a : α), Represents m s →
    ∃ s', (accumulate a).run s = .ok () s' ∧ Represents (a ::ₘ m) s'
  reduce : ∀ {m n s t}, Represents m s → Represents n t →
    ∃ s', (reduce t).run s = .ok () s' ∧ Represents (m + n) s'

namespace Mergeable

variable {init : σ} {accumulate : α → EStateM ε σ Unit} {reduce : σ → EStateM ε σ Unit}
variable {Represents : Multiset α → σ → Prop}

/-- Feeding a list adds exactly its values. -/
theorem accumulate_list (h : Mergeable init accumulate reduce Represents) (l : List α)
    {m : Multiset α} {s : σ} (hs : Represents m s) :
    ∃ s', (forM l accumulate).run s = .ok () s' ∧ Represents (m + l) s' := by
  induction l generalizing m s with
  | nil => exact ⟨s, rfl, by simpa using hs⟩
  | cons a l ih =>
    obtain ⟨s₁, hrun₁, hrep₁⟩ := h.accumulate a hs
    obtain ⟨s₂, hrun₂, hrep₂⟩ := ih hrep₁
    refine ⟨s₂, ?_, ?_⟩
    · simp [hrun₁, hrun₂]
    · rwa [Multiset.cons_add, ← Multiset.add_cons, Multiset.cons_coe] at hrep₂

/-- Reducing a list of accumulators adds exactly what each of them represents. -/
theorem reduce_list (h : Mergeable init accumulate reduce Represents) {accs : List σ}
    {parts : List (Multiset α)} (hparts : List.Forall₂ Represents parts accs)
    {m : Multiset α} {s : σ} (hs : Represents m s) :
    ∃ s', (forM accs reduce).run s = .ok () s' ∧ Represents (m + parts.sum) s' := by
  induction hparts generalizing m s with
  | nil => exact ⟨s, rfl, by simpa using hs⟩
  | cons hhead _ ih =>
    obtain ⟨s₁, hrun₁, hrep₁⟩ := h.reduce hs hhead
    obtain ⟨s₂, hrun₂, hrep₂⟩ := ih hrep₁
    refine ⟨s₂, ?_, ?_⟩
    · simp [hrun₁, hrun₂]
    · rwa [add_assoc, ← List.sum_cons] at hrep₂

/-- The sum of the parts of a list is the whole list. -/
theorem sum_map_coe (parts : List (List α)) :
    (parts.map Multiset.ofList).sum = (parts.flatten : Multiset α) := by
  induction parts with
  | nil => rfl
  | cons l parts ih => rw [List.map_cons, List.sum_cons, ih, List.flatten_cons, Multiset.coe_add]

/-- Every part of a split stream can be fed to an accumulator of its own. -/
theorem accumulate_parts (h : Mergeable init accumulate reduce Represents)
    (parts : List (List α)) :
    ∃ accs, List.Forall₂ (fun l s => (forM l accumulate).run init = .ok () s) parts accs ∧
      List.Forall₂ Represents (parts.map Multiset.ofList) accs := by
  induction parts with
  | nil => exact ⟨[], .nil, .nil⟩
  | cons l parts ih =>
    obtain ⟨s, hrun, hrep⟩ := h.accumulate_list l h.init
    obtain ⟨accs, hruns, hreps⟩ := ih
    exact ⟨s :: accs, .cons hrun hruns, .cons (by simpa using hrep) hreps⟩

/-- **Distribution**: however a stream is split over accumulators, merging them into a fresh
one gives an accumulator of the whole stream. -/
theorem reduce_distributed (h : Mergeable init accumulate reduce Represents)
    {parts : List (List α)} {accs : List σ}
    (haccs : List.Forall₂ (fun l s => (forM l accumulate).run init = .ok () s) parts accs) :
    ∃ s, (forM accs reduce).run init = .ok () s ∧ Represents (parts.flatten : Multiset α) s := by
  obtain ⟨accs', hruns, hreps⟩ := h.accumulate_parts parts
  -- feeding is a function, so these are the accumulators that were fed
  have heq : accs' = accs := by
    clear hreps
    induction haccs generalizing accs' with
    | nil => cases hruns; rfl
    | cons hrun _ ih =>
      cases hruns with
      | cons hrun' hruns' =>
        cases hrun.symm.trans hrun'
        rw [ih _ hruns']
  subst heq
  obtain ⟨s, hrun, hs⟩ := h.reduce_list hreps h.init
  exact ⟨s, hrun, by simpa [sum_map_coe] using hs⟩

end Mergeable

/-! ## Any grouping -/

/-- A way to feed values to accumulators and to merge these, in any order and at any depth. -/
inductive Grouping (α : Type) where
  | fresh
  | feed (g : Grouping α) (a : α)
  | merge (g g' : Grouping α)

namespace Grouping

/-- The values that are fed. -/
def values : Grouping α → List α
  | .fresh => []
  | .feed g a => g.values ++ [a]
  | .merge g g' => g.values ++ g'.values

variable (init : σ) (accumulate : α → EStateM ε σ Unit) (reduce : σ → EStateM ε σ Unit)

/-- Carries out a grouping.  An operation that fails ends it. -/
def run : Grouping α → EStateM.Result ε σ Unit
  | .fresh => .ok () init
  | .feed g a =>
    match g.run with
    | .ok _ s => (accumulate a).run s
    | .error e s => .error e s
  | .merge g g' =>
    match g.run, g'.run with
    | .ok _ s, .ok _ t => (reduce t).run s
    | .error e s, _ => .error e s
    | .ok _ _, .error e t => .error e t

/-- Feeds a list, one value after another. -/
def feedList (g : Grouping α) (l : List α) : Grouping α := l.foldl .feed g

variable {init accumulate reduce}

theorem values_feedList (g : Grouping α) (l : List α) : (g.feedList l).values = g.values ++ l := by
  induction l generalizing g with
  | nil => simp [feedList]
  | cons a l ih =>
    have htail := ih (g.feed a)
    simp only [feedList, List.foldl_cons] at htail ⊢
    rw [htail, values, List.append_assoc, List.singleton_append]

theorem run_feedList {g : Grouping α} {l : List α} {s s' : σ}
    (hg : g.run init accumulate reduce = .ok () s) (hl : (forM l accumulate).run s = .ok () s') :
    (g.feedList l).run init accumulate reduce = .ok () s' := by
  induction l generalizing g s with
  | nil =>
    cases hl
    exact hg
  | cons a l ih =>
    rw [List.forM_cons, EStateM.run_bind] at hl
    cases ha : (accumulate a).run s with
    | error e t => simp [ha] at hl
    | ok u t =>
      simp only [ha] at hl
      refine ih (g := g.feed a) ?_ hl
      simpa only [run, hg] using ha

end Grouping

/-- **Grouping**: however values are fed and accumulators merged, nothing fails, and the result
stands for the values. -/
theorem Mergeable.run_grouping {init : σ} {accumulate : α → EStateM ε σ Unit}
    {reduce : σ → EStateM ε σ Unit} {Represents : Multiset α → σ → Prop}
    (h : Mergeable init accumulate reduce Represents) (g : Grouping α) :
    ∃ s, g.run init accumulate reduce = .ok () s ∧ Represents g.values s := by
  induction g with
  | fresh => exact ⟨init, rfl, h.init⟩
  | feed g a ih =>
    obtain ⟨s, hrun, hrep⟩ := ih
    obtain ⟨s', hrun', hrep'⟩ := h.accumulate a hrep
    refine ⟨s', by simp only [Grouping.run, hrun, hrun'], ?_⟩
    rwa [Grouping.values, ← Multiset.coe_add, Multiset.coe_singleton, add_comm,
      Multiset.singleton_add]
  | merge g g' ih ih' =>
    obtain ⟨s, hrun, hrep⟩ := ih
    obtain ⟨t, hrun', hrep'⟩ := ih'
    obtain ⟨s', hreduce, hboth⟩ := h.reduce hrep hrep'
    refine ⟨s', by simp only [Grouping.run, hrun, hrun', hreduce], ?_⟩
    rwa [Grouping.values, ← Multiset.coe_add]

end Foundations
