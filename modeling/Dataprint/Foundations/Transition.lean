import Mathlib.Data.List.Induction
import Mathlib.Tactic.Common

/-!
# Labelled Transition Systems

A transition system has one start state and labelled steps.  A *run* is a trace
of labels together with the state it leads to, so a property of a whole history
(which labels occurred, in which order) and a property of a state are proved by
the same induction.

The rules a development uses:

- `Run.induct` — what holds at the start and is kept by every step holds after
  every run;
- `Run.split` — a run through `pre ++ l :: post` passes the step `l` right after `pre`;
- `Run.length_le` — a state measure that every step decreases bounds every run;
- `Run.exists_stuck` — under such a measure every run extends to a stuck state;
- `Refinement.run` — a system that refines another one performs its runs.
-/

namespace Foundations

/-- States, labels, one start state and a labelled step relation. -/
structure TransitionSystem (State Label : Type*) where
  start : State
  step : State → Label → State → Prop

namespace TransitionSystem

variable {State Label : Type*} (T : TransitionSystem State Label)

/-- `T.Run tr s`: performing the labels `tr` in order leads from the start to `s`. -/
inductive Run : List Label → State → Prop where
  | start : Run [] T.start
  | snoc {tr : List Label} {s : State} {l : Label} {s' : State} :
      Run tr s → T.step s l s' → Run (tr ++ [l]) s'

/-- `s` is reached by some run. -/
def Reachable (s : State) : Prop := ∃ tr, T.Run tr s

/-- No step leaves `s`. -/
def Stuck (s : State) : Prop := ∀ l s', ¬ T.step s l s'

/-- `Path s tr s'`: performing `tr` in order leads from `s` to `s'`. -/
inductive Path : State → List Label → State → Prop where
  | nil (s : State) : Path s [] s
  | cons {s s' s'' : State} {l : Label} {tr : List Label} :
      T.step s l s' → Path s' tr s'' → Path s (l :: tr) s''

variable {T}

theorem Reachable.start : T.Reachable T.start := ⟨[], .start⟩

theorem Reachable.step {s s' : State} {l : Label} (hs : T.Reachable s) (h : T.step s l s') :
    T.Reachable s' := by
  obtain ⟨tr, htr⟩ := hs
  exact ⟨tr ++ [l], htr.snoc h⟩

/-- **Invariant rule for runs**: the property may speak about the trace. -/
theorem Run.induct {I : List Label → State → Prop} (hstart : I [] T.start)
    (hstep : ∀ tr s l s', T.Run tr s → I tr s → T.step s l s' → I (tr ++ [l]) s')
    {tr : List Label} {s : State} (h : T.Run tr s) : I tr s := by
  induction h with
  | start => exact hstart
  | snoc hrun hst ih => exact hstep _ _ _ _ hrun ih hst

/-- **Invariant rule for reachable states.** -/
theorem Reachable.induct {I : State → Prop} (hstart : I T.start)
    (hstep : ∀ s l s', T.Reachable s → I s → T.step s l s' → I s')
    {s : State} (h : T.Reachable s) : I s := by
  obtain ⟨tr, htr⟩ := h
  exact Run.induct (I := fun _ s => I s) hstart
    (fun tr s l s' hrun hi hst => hstep s l s' ⟨tr, hrun⟩ hi hst) htr

/-- A run continued along a path is a run. -/
theorem Run.append_path {tr tr' : List Label} {s s' : State} (h : T.Run tr s)
    (hp : T.Path s tr' s') : T.Run (tr ++ tr') s' := by
  induction hp generalizing tr with
  | nil => simpa using h
  | cons hst _ ih => simpa using ih (h.snoc hst)

theorem Path.append {s s' s'' : State} {tr tr' : List Label} (h : T.Path s tr s')
    (h' : T.Path s' tr' s'') : T.Path s (tr ++ tr') s'' := by
  induction h with
  | nil => exact h'
  | cons hst _ ih => exact .cons hst (ih h')

theorem Path.single {s s' : State} {l : Label} (h : T.step s l s') : T.Path s [l] s' :=
  .cons h (.nil _)

/-- A run through `pre ++ post` passes a state after `pre`, and a path leads on. -/
theorem Run.split {pre post : List Label} {s : State} (h : T.Run (pre ++ post) s) :
    ∃ s₀, T.Run pre s₀ ∧ T.Path s₀ post s := by
  induction post using List.reverseRecOn generalizing s with
  | nil => exact ⟨s, by simpa using h, .nil _⟩
  | append_singleton post l ih =>
    rw [← List.append_assoc] at h
    generalize htr : pre ++ post ++ [l] = tr at h
    cases h with
    | start => simp at htr
    | snoc hrun hst =>
      obtain ⟨rfl, hl⟩ := List.append_inj' htr rfl
      cases hl
      obtain ⟨s₀, hpre, hpath⟩ := ih hrun
      exact ⟨s₀, hpre, hpath.append (.single hst)⟩

/-- The step labelled `l` in the middle of a run, with the run before it. -/
theorem Run.split_cons {pre post : List Label} {l : Label} {s : State}
    (h : T.Run (pre ++ l :: post) s) :
    ∃ s₀ s₁, T.Run pre s₀ ∧ T.step s₀ l s₁ ∧ T.Path s₁ post s := by
  obtain ⟨s₀, hpre, hpath⟩ := h.split
  cases hpath with
  | cons hst hrest => exact ⟨s₀, _, hpre, hst, hrest⟩

/-- A measure that every step decreases bounds the length of every run. -/
theorem Run.length_add_le {μ : State → ℕ} (hμ : ∀ s l s', T.step s l s' → μ s' < μ s)
    {tr : List Label} {s : State} (h : T.Run tr s) : tr.length + μ s ≤ μ T.start := by
  induction h with
  | start => simp
  | snoc _ hst ih =>
    have := hμ _ _ _ hst
    simp only [List.length_append, List.length_singleton]
    omega

theorem Run.length_le {μ : State → ℕ} (hμ : ∀ s l s', T.step s l s' → μ s' < μ s)
    {tr : List Label} {s : State} (h : T.Run tr s) : tr.length ≤ μ T.start := by
  have := h.length_add_le hμ
  omega

/-- Under a decreasing measure every state has a path to a stuck state. -/
theorem exists_path_stuck {μ : State → ℕ} (hμ : ∀ s l s', T.step s l s' → μ s' < μ s)
    (s : State) : ∃ tr s', T.Path s tr s' ∧ T.Stuck s' := by
  induction hn : μ s using Nat.strongRecOn generalizing s with
  | ind n ih =>
    by_cases hs : T.Stuck s
    · exact ⟨[], s, .nil s, hs⟩
    · simp only [Stuck, not_forall, not_not] at hs
      obtain ⟨l, s₁, hst⟩ := hs
      obtain ⟨tr, s', hpath, hstuck⟩ := ih (μ s₁) (hn ▸ hμ _ _ _ hst) s₁ rfl
      exact ⟨l :: tr, s', .cons hst hpath, hstuck⟩

/-- Under a decreasing measure every run extends to a run that ends stuck. -/
theorem Run.exists_stuck {μ : State → ℕ} (hμ : ∀ s l s', T.step s l s' → μ s' < μ s)
    {tr : List Label} {s : State} (h : T.Run tr s) :
    ∃ tr' s', T.Run (tr ++ tr') s' ∧ T.Stuck s' := by
  obtain ⟨tr', s', hpath, hstuck⟩ := exists_path_stuck hμ s
  exact ⟨tr', s', h.append_path hpath, hstuck⟩

/-! ## Refinement -/

/-- A refinement maps the states of one system to those of another.  A step between states that
satisfy the invariant becomes a step of the other system, or leaves its state as it is. -/
structure Refinement {State' Label' : Type*} (T : TransitionSystem State Label)
    (T' : TransitionSystem State' Label') where
  abs : State → State'
  label : Label → Option Label'
  inv : State → Prop
  inv_start : inv T.start
  abs_start : abs T.start = T'.start
  inv_step : ∀ {s l s'}, inv s → T.step s l s' → inv s'
  abs_step : ∀ {s l s'}, inv s → T.step s l s' →
    match label l with
    | some l' => T'.step (abs s) l' (abs s')
    | none => abs s' = abs s

namespace Refinement

variable {State' Label' : Type*} {T' : TransitionSystem State' Label'} (R : Refinement T T')

theorem path {s s' : State} {tr : List Label} (hs : R.inv s) (h : T.Path s tr s') :
    T'.Path (R.abs s) (tr.filterMap R.label) (R.abs s') := by
  induction h with
  | nil => exact .nil _
  | @cons s s₁ s' l tr hst _ ih =>
    have hstep := R.abs_step hs hst
    have htail := ih (R.inv_step hs hst)
    cases hl : R.label l with
    | none =>
      simp only [hl] at hstep
      rwa [List.filterMap_cons_none hl, ← hstep]
    | some l' =>
      simp only [hl] at hstep
      rw [List.filterMap_cons_some hl]
      exact .cons hstep htail

theorem inv_run {s : State} {tr : List Label} (h : T.Run tr s) : R.inv s :=
  Reachable.induct (I := R.inv) R.inv_start (fun _ _ _ _ => R.inv_step) ⟨tr, h⟩

/-- **Refinement rule**: the visible part of a run is a run of the other system. -/
theorem run {s : State} {tr : List Label} (h : T.Run tr s) :
    T'.Run (tr.filterMap R.label) (R.abs s) := by
  have hpath : T.Path T.start tr s := by
    have hsplit : T.Run ([] ++ tr) s := h
    obtain ⟨s₀, hstart, hpath⟩ := hsplit.split
    generalize hnil : ([] : List Label) = pre at hstart
    cases hstart with
    | start => exact hpath
    | snoc => simp at hnil
  have hpath' := R.path R.inv_start hpath
  rw [R.abs_start] at hpath'
  simpa using Run.start.append_path hpath'

end Refinement

end TransitionSystem

end Foundations
