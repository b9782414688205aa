import Dataprint.Foundations.Transition

/-!
# The Bounded Queue

The blocking queue between the chunking thread and the workers (`src/boundedQueue.cpp`).
Every method holds the mutex from its wait to its return, so a call that returns is one
atomic step; a call whose wait predicate is false takes no step.

- `push`, `pop`, `shutdown` are the methods, `none` standing for a call that waits;
- `system` is the queue used by any number of threads in any order;
- `Run.history` relates a whole history of calls to the contents, and
  `boundedQueue_fifo` states what users of the queue rely on.
-/

namespace Dataprint

open Foundations

/-- The queue: its items, oldest first, its bound and whether it was shut down. -/
structure BoundedQueue (α : Type) where
  queue : List α
  maxSize : ℕ
  done : Bool
  /-- never more items than the bound -/
  bounded : queue.length ≤ maxSize

namespace BoundedQueue

variable {α : Type}

/-- The constructor. -/
def new (maxSize : ℕ) : BoundedQueue α where
  queue := []
  maxSize := maxSize
  done := false
  bounded := Nat.zero_le _

/-- Pushes an item; `false` if the queue has been shut down, `none` while it waits for room. -/
def push (q : BoundedQueue α) (item : α) : Option (Bool × BoundedQueue α) :=
  -- the predicate of `not_full_.wait`
  if hroom : q.queue.length < q.maxSize ∨ q.done = true then
    if hdone : q.done = true then
      some (false, q)
    else
      some (true,
        { q with
          queue := q.queue ++ [item]
          bounded := by simpa [Nat.succ_le_iff, hdone] using hroom })
  else
    none

/-- Pops the oldest item; no item if the queue is empty and shut down, `none` while it waits
for one. -/
def pop (q : BoundedQueue α) : Option (Option α × BoundedQueue α) :=
  -- the predicate of `not_empty_.wait`
  if q.queue ≠ [] ∨ q.done = true then
    match hqueue : q.queue with
    | [] => some (none, q)
    | item :: rest =>
      some (some item,
        { q with
          queue := rest
          bounded := Nat.le_of_succ_le (by simpa [hqueue] using q.bounded) })
  else
    none

/-- Shuts the queue down and wakes everybody. -/
def shutdown (q : BoundedQueue α) : BoundedQueue α := { q with done := true }

def size (q : BoundedQueue α) : ℕ := q.queue.length

@[simp] theorem shutdown_queue (q : BoundedQueue α) : q.shutdown.queue = q.queue := rfl

@[simp] theorem shutdown_done (q : BoundedQueue α) : q.shutdown.done = true := rfl

/-- What a push that returns does. -/
theorem push_cases {q q' : BoundedQueue α} {item : α} {accepted : Bool}
    (h : q.push item = some (accepted, q')) :
    (accepted = false ∧ q.done = true ∧ q' = q) ∨
    (accepted = true ∧ q.done = false ∧ q'.queue = q.queue ++ [item] ∧
      q'.maxSize = q.maxSize ∧ q'.done = false) := by
  unfold push at h
  split at h
  case isTrue hroom =>
    split at h
    case isTrue hdone =>
      cases h
      exact .inl ⟨rfl, hdone, rfl⟩
    case isFalse hdone =>
      cases h
      have hdone : q.done = false := by simpa using hdone
      exact .inr ⟨rfl, hdone, rfl, rfl, hdone⟩
  case isFalse => cases h

/-- What a pop that returns does. -/
theorem pop_cases {q q' : BoundedQueue α} {result : Option α}
    (h : q.pop = some (result, q')) :
    (result = none ∧ q.queue = [] ∧ q.done = true ∧ q' = q) ∨
    (∃ item, result = some item ∧ q.queue = item :: q'.queue ∧
      q'.maxSize = q.maxSize ∧ q'.done = q.done) := by
  unfold pop at h
  split at h
  case isTrue hready =>
    split at h
    case h_1 hqueue =>
      cases h
      exact .inl ⟨rfl, hqueue, by simpa [hqueue] using hready, rfl⟩
    case h_2 item rest hqueue =>
      cases h
      exact .inr ⟨item, rfl, hqueue, rfl, rfl⟩
  case isFalse => cases h

/-- A pop that returns no item has found the queue empty and shut down. -/
theorem pop_none {q q' : BoundedQueue α} (h : q.pop = some (none, q')) :
    q.queue = [] ∧ q.done = true ∧ q' = q := by
  rcases pop_cases h with ⟨-, hqueue, hdone, hq⟩ | ⟨item, hitem, -⟩
  · exact ⟨hqueue, hdone, hq⟩
  · cases hitem

/-- A pop that returns an item has taken the first one. -/
theorem pop_some {q q' : BoundedQueue α} {item : α} (h : q.pop = some (some item, q')) :
    q.queue = item :: q'.queue ∧ q'.maxSize = q.maxSize ∧ q'.done = q.done := by
  rcases pop_cases h with ⟨hnone, -⟩ | ⟨item', hitem, hrest⟩
  · cases hnone
  · cases hitem
    exact hrest

/-- A push waits exactly while the queue is full and not shut down. -/
theorem push_eq_none {q : BoundedQueue α} {item : α} :
    q.push item = none ↔ q.done = false ∧ q.maxSize ≤ q.queue.length := by
  unfold push
  split
  case isTrue hroom =>
    split
    case isTrue hdone => simp [hdone]
    case isFalse hdone => simpa [hdone] using hroom
  case isFalse hroom => simpa [not_or, and_comm] using hroom

/-- A pop waits exactly while the queue is empty and not shut down. -/
theorem pop_eq_none {q : BoundedQueue α} : q.pop = none ↔ q.done = false ∧ q.queue = [] := by
  unfold pop
  split
  case isTrue hready =>
    split
    case h_1 hqueue => simpa [hqueue] using hready
    case h_2 item rest hqueue => simp [hqueue]
  case isFalse hready => simpa [not_or, and_comm] using hready

/-! ## Histories -/

/-- A call that returned, with the thread that made it. -/
inductive Call (Thread α : Type) where
  | push (thread : Thread) (item : α) (accepted : Bool)
  | pop (thread : Thread) (result : Option α)
  | shutdown (thread : Thread)

variable {Thread : Type}

/-- The effect of a call that returns. -/
def step (q : BoundedQueue α) (call : Call Thread α) (q' : BoundedQueue α) : Prop :=
  match call with
  | .push _ item accepted => q.push item = some (accepted, q')
  | .pop _ result => q.pop = some (result, q')
  | .shutdown _ => q.shutdown = q'

/-- The queue shared by any number of threads. -/
def system (Thread α : Type) (maxSize : ℕ) : TransitionSystem (BoundedQueue α) (Call Thread α) where
  start := new maxSize
  step := step

/-- The items of the pushes that returned `true`, in order. -/
def accepted (calls : List (Call Thread α)) : List α :=
  calls.filterMap fun
    | .push _ item true => some item
    | _ => none

/-- The items that pops returned, in order. -/
def popped (calls : List (Call Thread α)) : List α :=
  calls.filterMap fun
    | .pop _ result => result
    | _ => none

/-- Some thread has shut the queue down. -/
def ShutDown (calls : List (Call Thread α)) : Prop :=
  ∃ thread, .shutdown thread ∈ calls

/-- What a history says about the queue it leads to. -/
structure History (maxSize : ℕ) (calls : List (Call Thread α)) (q : BoundedQueue α) : Prop where
  maxSize_eq : q.maxSize = maxSize
  fifo : popped calls ++ q.queue = accepted calls
  done_iff : q.done = true ↔ ShutDown calls

theorem History.new (maxSize : ℕ) :
    History maxSize ([] : List (Call Thread α)) (new maxSize) where
  maxSize_eq := rfl
  fifo := rfl
  done_iff := by simp [BoundedQueue.new, ShutDown]

/-- One call keeps the relation. -/
theorem History.step {maxSize : ℕ} {calls : List (Call Thread α)} {q q' : BoundedQueue α}
    {call : Call Thread α} (h : History maxSize calls q) (hst : step q call q') :
    History maxSize (calls ++ [call]) q' := by
  obtain ⟨hmax, hfifo, hdone⟩ := h
  cases call with
  | push thread item acc =>
    have hshut : ShutDown (calls ++ [.push thread item acc]) ↔ ShutDown calls := by
      simp [ShutDown]
    rcases push_cases hst with ⟨rfl, hd, rfl⟩ | ⟨rfl, hd, hqueue, hmax', hd'⟩
    · exact ⟨hmax, by simpa [popped, accepted] using hfifo, hdone.trans hshut.symm⟩
    · refine ⟨hmax'.trans hmax, ?_, ?_⟩
      · -- the new item is last on both sides
        simp only [popped, accepted, List.filterMap_append, List.filterMap_cons,
          List.filterMap_nil, List.append_nil] at hfifo ⊢
        rw [hqueue, ← List.append_assoc, hfifo]
      · rw [hshut, ← hdone, hd, hd']
  | pop thread result =>
    have hshut : ShutDown (calls ++ [.pop thread result]) ↔ ShutDown calls := by
      simp [ShutDown]
    rcases pop_cases hst with ⟨rfl, hqueue, hd, rfl⟩ | ⟨item, rfl, hqueue, hmax', hd'⟩
    · exact ⟨hmax, by simpa [popped, accepted] using hfifo, hdone.trans hshut.symm⟩
    · refine ⟨hmax'.trans hmax, ?_, ?_⟩
      · -- the head of the queue becomes the last item popped
        simp only [popped, accepted, List.filterMap_append, List.filterMap_cons,
          List.filterMap_nil, List.append_nil] at hfifo ⊢
        rw [← hfifo, hqueue, List.append_assoc, List.singleton_append]
      · rw [hshut, ← hdone, hd']
  | shutdown thread =>
    cases hst
    refine ⟨hmax, by simpa [popped, accepted] using hfifo, ?_⟩
    simp only [shutdown_done, true_iff]
    exact ⟨thread, by simp⟩

/-- Every history of calls relates to the queue in this way. -/
theorem Run.history {maxSize : ℕ} {calls : List (Call Thread α)} {q : BoundedQueue α}
    (h : (system Thread α maxSize).Run calls q) : History maxSize calls q :=
  h.induct (.new maxSize) fun _ _ _ _ _ hi hst => hi.step hst

/-- **A bounded first-in first-out queue that loses nothing across shutdown.**  In every history
of calls by any threads: the bound is kept; the popped items followed by the contents are the
accepted items in order; no push is accepted after a shutdown; and a pop that returns no item
comes after a shutdown, when every accepted item has been popped. -/
theorem boundedQueue_fifo (maxSize : ℕ) (calls : List (Call Thread α)) (q : BoundedQueue α)
    (h : (system Thread α maxSize).Run calls q) :
    q.queue.length ≤ maxSize ∧
    popped calls ++ q.queue = accepted calls ∧
    (∀ pre thread item post, calls = pre ++ .push thread item true :: post → ¬ ShutDown pre) ∧
    (∀ pre thread post, calls = pre ++ .pop thread none :: post →
      ShutDown pre ∧ popped pre = accepted pre) := by
  have hist := Run.history h
  refine ⟨hist.maxSize_eq ▸ q.bounded, hist.fifo, ?_, ?_⟩
  · rintro pre thread item post rfl
    obtain ⟨q₀, q₁, hpre, hst, -⟩ := h.split_cons
    -- an accepted push finds the queue open
    rcases push_cases hst with ⟨hfalse, -, -⟩ | ⟨-, hd, -, -, -⟩
    · cases hfalse
    · rw [← (Run.history hpre).done_iff, hd]
      exact Bool.false_ne_true
  · rintro pre thread post rfl
    obtain ⟨q₀, q₁, hpre, hst, -⟩ := h.split_cons
    have hist₀ := Run.history hpre
    obtain ⟨hqueue, hd, -⟩ := pop_none hst
    refine ⟨hist₀.done_iff.mp hd, ?_⟩
    rw [← hist₀.fifo, hqueue, List.append_nil]

/-- Two threads over a bound of one: a push, a shutdown and two pops. -/
theorem boundedQueue_fifo_drained :
    let calls : List (Call Bool ℕ) :=
      [.push true 7 true, .shutdown true, .pop false (some 7), .pop false none]
    ∃ q, (system Bool ℕ 1).Run calls q ∧ q.queue.length ≤ 1 ∧ popped calls ++ q.queue = [7] := by
  intro calls
  let full : BoundedQueue ℕ := ⟨[7], 1, false, Nat.le_refl 1⟩
  let drained : BoundedQueue ℕ := ⟨[], 1, true, Nat.zero_le 1⟩
  have hpush : (system Bool ℕ 1).step (new 1) (.push true 7 true) full := rfl
  have hdown : (system Bool ℕ 1).step full (.shutdown true) full.shutdown := rfl
  have hpop : (system Bool ℕ 1).step full.shutdown (.pop false (some 7)) drained := rfl
  have hexit : (system Bool ℕ 1).step drained (.pop false none) drained := rfl
  have hdrained : (system Bool ℕ 1).Run calls drained :=
    (((TransitionSystem.Run.start.snoc hpush).snoc hdown).snoc hpop).snoc hexit
  have hfifo := boundedQueue_fifo 1 calls drained hdrained
  exact ⟨drained, hdrained, hfifo.1, hfifo.2.1⟩

end BoundedQueue

end Dataprint
