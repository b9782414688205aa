import Dataprint.BoundedQueue
import Dataprint.Foundations.ConditionVariable
import Mathlib.Logic.Function.Basic

/-!
# Sleeping and Waking in the Bounded Queue

The queue of `src/boundedQueue.cpp` with its two condition variables.  In the model of
`BoundedQueue` a call that has to wait takes no step; here it puts its thread to sleep, and
the thread runs again when a notification or a spurious wakeup lets it.

- `Turn` is what a thread does from taking the mutex to releasing it, by returning or by
  going to sleep;
- `WaitingQueue.Inv` counts: a woken consumer for every item, a woken producer for every free
  slot, as long as anybody of the kind sleeps;
- `returned_run` says that the calls that return are a history of the queue without threads,
  and `no_lost_wakeup` that nobody sleeps through what was pushed, popped or shut down.
-/

namespace Dataprint

open Foundations

/-- A call that may have to wait. -/
inductive Request (α : Type) where
  | push (item : α)
  | pop

/-- The queue, its condition variables, and the call that each waiting thread is in. -/
structure WaitingQueue (Thread α : Type) where
  queue : BoundedQueue α
  notFull : ConditionVariable Thread
  notEmpty : ConditionVariable Thread
  call : Thread → Option (Request α)

namespace WaitingQueue

open BoundedQueue (Call)
open ConditionVariable (NotifyOne Covers)

variable {Thread α : Type}

def new (Thread : Type) {α : Type} (maxSize : ℕ) : WaitingQueue Thread α where
  queue := .new maxSize
  notFull := .idle
  notEmpty := .idle
  call _ := none

/-- The condition variable that a call waits on. -/
def condition (s : WaitingQueue Thread α) : Request α → ConditionVariable Thread
  | .push _ => s.notFull
  | .pop => s.notEmpty

/-- A thread is asleep in a call. -/
def Asleep (s : WaitingQueue Thread α) (t : Thread) (r : Request α) : Prop :=
  s.call t = some r ∧ t ∈ (s.condition r).sleeping

/-- A thread was woken in a call and has yet to run. -/
def Woken (s : WaitingQueue Thread α) (t : Thread) (r : Request α) : Prop :=
  s.call t = some r ∧ t ∈ (s.condition r).woken

/-- A thread is in no call, or was woken in this one: it may take the mutex. -/
def Ready (s : WaitingQueue Thread α) (t : Thread) (r : Request α) : Prop :=
  s.call t = none ∨ s.Woken t r

/-! ## Two invariants -/

/-- The threads inside a wait are those in a call, each on the right condition variable. -/
structure CallsMatch (s : WaitingQueue Thread α) : Prop where
  pushes : ∀ t, s.notFull.Waits t ↔ ∃ item, s.call t = some (.push item)
  pops : ∀ t, s.notEmpty.Waits t ↔ s.call t = some .pop

/-- Wakeups are on their way for everything there is to take. -/
structure Inv (maxSize : ℕ) (s : WaitingQueue Thread α) : Prop where
  maxSize_eq : s.queue.maxSize = maxSize
  /-- a woken producer for each free slot -/
  slots : s.notFull.Covers (maxSize - s.queue.queue.length)
  /-- a woken consumer for each item -/
  items : s.notEmpty.Covers s.queue.queue.length
  /-- nobody sleeps after a shutdown -/
  down : s.queue.done = true → s.notFull.sleeping = ∅ ∧ s.notEmpty.sleeping = ∅

theorem Inv.new (maxSize : ℕ) : Inv maxSize (new Thread (α := α) maxSize) where
  maxSize_eq := rfl
  slots := .of_sleeping_eq_empty rfl _
  items := .of_sleeping_eq_empty rfl _
  down _ := ⟨rfl, rfl⟩

theorem CallsMatch.new (maxSize : ℕ) : CallsMatch (new Thread (α := α) maxSize) where
  pushes t := by simp [WaitingQueue.new, ConditionVariable.not_waits_idle]
  pops t := by simp [WaitingQueue.new, ConditionVariable.not_waits_idle]

/-- A thread that may take the mutex is in no other call and sleeps nowhere. -/
theorem Ready.call_eq {s : WaitingQueue Thread α} {t : Thread} {r : Request α} (h : s.Ready t r) :
    s.call t = none ∨ s.call t = some r :=
  h.imp id And.left

theorem Ready.not_asleep {s : WaitingQueue Thread α} {t : Thread} {r : Request α}
    (h : s.Ready t r) (hm : CallsMatch s) : t ∉ s.notFull.sleeping ∧ t ∉ s.notEmpty.sleeping := by
  have hpush : t ∈ s.notFull.sleeping → ∃ item, s.call t = some (.push item) :=
    fun ht => (hm.pushes t).mp (.inl ht)
  have hpop : t ∈ s.notEmpty.sleeping → s.call t = some .pop := fun ht => (hm.pops t).mp (.inl ht)
  rcases h with hnone | ⟨hcall, hwoken⟩
  · -- outside of every call
    exact ⟨fun ht => by simpa [hnone] using hpush ht, fun ht => by simpa [hnone] using hpop ht⟩
  · cases r with
    | push item =>
      refine ⟨fun ht => Finset.disjoint_left.mp s.notFull.disjoint ht hwoken, fun ht => ?_⟩
      simpa [hcall] using hpop ht
    | pop =>
      refine ⟨fun ht => ?_, fun ht => Finset.disjoint_left.mp s.notEmpty.disjoint ht hwoken⟩
      simpa [hcall] using hpush ht

/-! ## Steps -/

variable [DecidableEq Thread]

/-- A thread holds the mutex in a call: it returns, or it finds its predicate false and goes
to sleep. -/
inductive Turn (s : WaitingQueue Thread α) (t : Thread) :
    Request α → Option (Call Thread α) → WaitingQueue Thread α → Prop where
  /-- there is room: the item is pushed and a consumer notified -/
  | pushed {item : α} {q : BoundedQueue α} {notEmpty : ConditionVariable Thread} :
      s.queue.push item = some (true, q) → NotifyOne s.notEmpty notEmpty →
        Turn s t (.push item) (some (.push t item true))
          ⟨q, s.notFull.leave t, notEmpty, Function.update s.call t none⟩
  /-- the queue is shut down -/
  | refused {item : α} {q : BoundedQueue α} :
      s.queue.push item = some (false, q) →
        Turn s t (.push item) (some (.push t item false))
          ⟨q, s.notFull.leave t, s.notEmpty, Function.update s.call t none⟩
  /-- the queue is full -/
  | full {item : α} :
      s.queue.push item = none →
        Turn s t (.push item) none
          ⟨s.queue, s.notFull.wait t, s.notEmpty, Function.update s.call t (some (.push item))⟩
  /-- there is an item: it is popped and a producer notified -/
  | popped {item : α} {q : BoundedQueue α} {notFull : ConditionVariable Thread} :
      s.queue.pop = some (some item, q) → NotifyOne s.notFull notFull →
        Turn s t .pop (some (.pop t (some item)))
          ⟨q, notFull, s.notEmpty.leave t, Function.update s.call t none⟩
  /-- the queue is shut down and empty -/
  | drained {q : BoundedQueue α} :
      s.queue.pop = some (none, q) →
        Turn s t .pop (some (.pop t none))
          ⟨q, s.notFull, s.notEmpty.leave t, Function.update s.call t none⟩
  /-- the queue is empty -/
  | empty :
      s.queue.pop = none →
        Turn s t .pop none
          ⟨s.queue, s.notFull, s.notEmpty.wait t, Function.update s.call t (some .pop)⟩

/-- What may happen next, labelled with the call that returns, if one does. -/
inductive Step (s : WaitingQueue Thread α) :
    Option (Call Thread α) → WaitingQueue Thread α → Prop where
  /-- a new call, or a woken thread that checks its predicate again -/
  | turn {t : Thread} {r : Request α} {returned : Option (Call Thread α)}
      {s' : WaitingQueue Thread α} : s.Ready t r → Turn s t r returned s' → Step s returned s'
  | shutdown {t : Thread} :
      s.call t = none →
        Step s (some (.shutdown t))
          ⟨s.queue.shutdown, s.notFull.notifyAll, s.notEmpty.notifyAll, s.call⟩
  /-- a producer wakes without a notification -/
  | spuriousPush {t : Thread} :
      t ∈ s.notFull.sleeping → Step s none { s with notFull := s.notFull.wake t }
  /-- a consumer wakes without a notification -/
  | spuriousPop {t : Thread} :
      t ∈ s.notEmpty.sleeping → Step s none { s with notEmpty := s.notEmpty.wake t }

/-- The queue with the threads that wait for it. -/
def system (Thread α : Type) [DecidableEq Thread] (maxSize : ℕ) :
    TransitionSystem (WaitingQueue Thread α) (Option (Call Thread α)) where
  start := new Thread maxSize
  step := Step

/-! ## The queue without the threads -/

/-- A call that returns has its effect on the queue, and nothing else has one. -/
theorem Step.queue_step {s s' : WaitingQueue Thread α} {returned : Option (Call Thread α)}
    (h : Step s returned s') :
    match returned with
    | some call => BoundedQueue.step s.queue call s'.queue
    | none => s'.queue = s.queue := by
  cases h with
  | turn _ hturn =>
    cases hturn with
    | pushed hpush => exact hpush
    | refused hpush => exact hpush
    | full => rfl
    | popped hpop => exact hpop
    | drained hpop => exact hpop
    | empty => rfl
  | shutdown => rfl
  | spuriousPush => rfl
  | spuriousPop => rfl

/-- The queue with the threads that wait for it, seen from the queue. -/
def queueRefinement (Thread α : Type) [DecidableEq Thread] (maxSize : ℕ) :
    TransitionSystem.Refinement (system Thread α maxSize)
      (BoundedQueue.system Thread α maxSize) where
  abs := WaitingQueue.queue
  label := id
  inv _ := True
  inv_start := trivial
  abs_start := rfl
  inv_step _ _ := trivial
  abs_step {s l s'} _ hst := by
    have hqueue := Step.queue_step hst
    cases l with
    | none => exact hqueue
    | some call => exact hqueue

/-- **The calls that return are a history of the queue**, in the order in which they return. -/
theorem returned_run {maxSize : ℕ} {tr : List (Option (Call Thread α))}
    {s : WaitingQueue Thread α} (h : (system Thread α maxSize).Run tr s) :
    (BoundedQueue.system Thread α maxSize).Run (tr.filterMap id) s.queue :=
  (queueRefinement Thread α maxSize).run h

/-! ## The calls match -/

/-- What a push does to its thread is no pop. -/
theorem Ready.update_pop {s : WaitingQueue Thread α} {t : Thread} {item : α}
    (h : s.Ready t (.push item)) {c : Option (Request α)} (hc : c ≠ some .pop) (u : Thread) :
    s.call u = some .pop ↔ Function.update s.call t c u = some .pop := by
  by_cases hu : u = t
  · rcases h.call_eq with hcall | hcall <;> simp [hu, hcall, hc]
  · rw [Function.update_of_ne hu]

/-- What a pop does to its thread is no push. -/
theorem Ready.update_push {s : WaitingQueue Thread α} {t : Thread} (h : s.Ready t .pop)
    {c : Option (Request α)} (hc : ∀ item, c ≠ some (.push item)) (u : Thread) :
    (∃ item, s.call u = some (.push item)) ↔
      ∃ item, Function.update s.call t c u = some (.push item) := by
  by_cases hu : u = t
  · rcases h.call_eq with hcall | hcall <;> simp [hu, hcall, hc]
  · rw [Function.update_of_ne hu]

/-- A push that returns. -/
theorem CallsMatch.push_returns {s : WaitingQueue Thread α} (hm : CallsMatch s) {t : Thread}
    {item : α} (h : s.Ready t (.push item)) {q : BoundedQueue α}
    {notEmpty : ConditionVariable Thread} (hwaits : ∀ u, notEmpty.Waits u ↔ s.notEmpty.Waits u) :
    CallsMatch ⟨q, s.notFull.leave t, notEmpty, Function.update s.call t none⟩ where
  pushes u := by
    rw [ConditionVariable.waits_leave (h.not_asleep hm).1, hm.pushes u]
    by_cases hu : u = t <;> simp [hu]
  pops u := by
    rw [hwaits u, hm.pops u]
    exact h.update_pop (by simp) u

/-- A pop that returns. -/
theorem CallsMatch.pop_returns {s : WaitingQueue Thread α} (hm : CallsMatch s) {t : Thread}
    (h : s.Ready t .pop) {q : BoundedQueue α} {notFull : ConditionVariable Thread}
    (hwaits : ∀ u, notFull.Waits u ↔ s.notFull.Waits u) :
    CallsMatch ⟨q, notFull, s.notEmpty.leave t, Function.update s.call t none⟩ where
  pushes u := by
    rw [hwaits u, hm.pushes u]
    exact h.update_push (by simp) u
  pops u := by
    rw [ConditionVariable.waits_leave (h.not_asleep hm).2, hm.pops u]
    by_cases hu : u = t <;> simp [hu]

/-- A turn keeps the calls right. -/
theorem CallsMatch.turn {s s' : WaitingQueue Thread α} (hm : CallsMatch s) {t : Thread}
    {r : Request α} {returned : Option (Call Thread α)} (h : s.Ready t r)
    (hturn : Turn s t r returned s') : CallsMatch s' := by
  cases hturn with
  | pushed _ hnotify => exact hm.push_returns h fun u => hnotify.waits_iff
  | refused => exact hm.push_returns h fun u => Iff.rfl
  | full =>
    refine ⟨fun u => ?_, fun u => (hm.pops u).trans (h.update_pop (by simp) u)⟩
    rw [ConditionVariable.waits_wait, hm.pushes u]
    by_cases hu : u = t <;> simp [hu]
  | popped _ hnotify => exact hm.pop_returns h fun u => hnotify.waits_iff
  | drained => exact hm.pop_returns h fun u => Iff.rfl
  | empty =>
    refine ⟨fun u => (hm.pushes u).trans (h.update_push (by simp) u), fun u => ?_⟩
    rw [ConditionVariable.waits_wait, hm.pops u]
    by_cases hu : u = t <;> simp [hu]

theorem CallsMatch.step {s s' : WaitingQueue Thread α} (hm : CallsMatch s)
    {returned : Option (Call Thread α)} (h : Step s returned s') : CallsMatch s' := by
  cases h with
  | turn hready hturn => exact hm.turn hready hturn
  | shutdown =>
    exact ⟨fun u => ConditionVariable.waits_notifyAll.trans (hm.pushes u),
      fun u => ConditionVariable.waits_notifyAll.trans (hm.pops u)⟩
  | spuriousPush ht => exact ⟨fun u => (ConditionVariable.waits_wake ht).trans (hm.pushes u), hm.pops⟩
  | spuriousPop ht => exact ⟨hm.pushes, fun u => (ConditionVariable.waits_wake ht).trans (hm.pops u)⟩

/-! ## The counting invariant -/

/-- A turn keeps the counts: who takes something leaves, and who makes something notifies. -/
theorem Inv.turn {maxSize : ℕ} {s s' : WaitingQueue Thread α} (hi : Inv maxSize s) {t : Thread}
    {r : Request α} {returned : Option (Call Thread α)} (hturn : Turn s t r returned s') :
    Inv maxSize s' := by
  obtain ⟨hmax, hslots, hitems, hdown⟩ := hi
  cases hturn with
  | @pushed item q notEmpty hpush hnotify =>
    rcases BoundedQueue.push_cases hpush with ⟨hfalse, -⟩ | ⟨-, -, hqueue, hmax', hd'⟩
    · cases hfalse
    · have hroom : q.queue.length = s.queue.queue.length + 1 := by simp [hqueue]
      have hbound := q.bounded
      refine ⟨hmax'.trans hmax, ?_, ?_, ?_⟩
      · -- one slot less, and the thread that took it leaves
        apply Covers.leave
        apply hslots.mono
        show maxSize - q.queue.length + 1 ≤ maxSize - s.queue.queue.length
        omega
      · -- one item more, and one consumer notified
        show notEmpty.Covers q.queue.length
        rw [hroom]
        exact hitems.notifyOne hnotify
      · intro hd
        simp [hd'] at hd
  | refused hpush =>
    rcases BoundedQueue.push_cases hpush with ⟨-, hd, rfl⟩ | ⟨htrue, -⟩
    · have hnone : (s.notFull.leave t).sleeping = ∅ := (hdown hd).1
      exact ⟨hmax, .of_sleeping_eq_empty hnone _, hitems, hdown⟩
    · cases htrue
  | full hpush =>
    obtain ⟨hd, hfull⟩ := BoundedQueue.push_eq_none.mp hpush
    refine ⟨hmax, ?_, hitems, fun hd' => by simp [hd] at hd'⟩
    -- the thread goes to sleep only where there is no slot to take
    have hnone : maxSize - s.queue.queue.length = 0 := by omega
    show (s.notFull.wait t).Covers (maxSize - s.queue.queue.length)
    rw [hnone]
    exact .zero _
  | @popped item q notFull hpop hnotify =>
    obtain ⟨hqueue, hmax', hd'⟩ := BoundedQueue.pop_some hpop
    have hlength : s.queue.queue.length = q.queue.length + 1 := by simp [hqueue]
    refine ⟨hmax'.trans hmax, ?_, ?_, ?_⟩
    · -- one slot more, and one producer notified
      apply (hslots.notifyOne hnotify).mono
      show maxSize - q.queue.length ≤ maxSize - s.queue.queue.length + 1
      omega
    · -- one item less: a newcomer may have taken it before the thread that was woken for it
      apply Covers.leave
      show s.notEmpty.Covers (q.queue.length + 1)
      rw [← hlength]
      exact hitems
    · intro hd
      have hasleep := hdown (hd'.symm.trans hd)
      exact ⟨hnotify.sleeping_eq_empty hasleep.1, hasleep.2⟩
  | drained hpop =>
    obtain ⟨hqueue, hd, rfl⟩ := BoundedQueue.pop_none hpop
    have hnone : (s.notEmpty.leave t).sleeping = ∅ := (hdown hd).2
    exact ⟨hmax, hslots, .of_sleeping_eq_empty hnone _, hdown⟩
  | empty hpop =>
    obtain ⟨hd, hqueue⟩ := BoundedQueue.pop_eq_none.mp hpop
    refine ⟨hmax, hslots, ?_, fun hd' => by simp [hd] at hd'⟩
    show (s.notEmpty.wait t).Covers s.queue.queue.length
    rw [hqueue]
    exact .zero _

theorem Inv.step {maxSize : ℕ} {s s' : WaitingQueue Thread α} (hi : Inv maxSize s)
    {returned : Option (Call Thread α)} (h : Step s returned s') : Inv maxSize s' := by
  cases h with
  | turn _ hturn => exact hi.turn hturn
  | shutdown =>
    exact ⟨hi.maxSize_eq, .of_sleeping_eq_empty rfl _, .of_sleeping_eq_empty rfl _,
      fun _ => ⟨rfl, rfl⟩⟩
  | spuriousPush ht =>
    refine ⟨hi.maxSize_eq, (hi.slots.wake ht).mono (Nat.le_succ _), hi.items, fun hd => ?_⟩
    -- there is nobody to wake after a shutdown
    rw [(hi.down hd).1] at ht
    simp at ht
  | spuriousPop ht =>
    refine ⟨hi.maxSize_eq, hi.slots, (hi.items.wake ht).mono (Nat.le_succ _), fun hd => ?_⟩
    rw [(hi.down hd).2] at ht
    simp at ht

/-- What holds in every reachable state. -/
theorem reachable_inv {maxSize : ℕ} {s : WaitingQueue Thread α}
    (h : (system Thread α maxSize).Reachable s) : CallsMatch s ∧ Inv maxSize s :=
  h.induct (I := fun s => CallsMatch s ∧ Inv maxSize s) ⟨.new maxSize, .new maxSize⟩
    fun _ _ _ _ hi hstep => ⟨hi.1.step hstep, hi.2.step hstep⟩

/-! ## No lost wakeup -/

/-- **Nobody sleeps through a wakeup.**  Beside a thread asleep in `pop`, if there is an item or
the queue is shut down, another consumer was woken and has yet to run; and likewise beside a
thread asleep in `push`, if there is room or the queue is shut down. -/
theorem no_lost_wakeup (maxSize : ℕ) (s : WaitingQueue Thread α)
    (h : (system Thread α maxSize).Reachable s) :
    (∀ t, s.Asleep t .pop → s.queue.queue ≠ [] ∨ s.queue.done = true →
      ∃ u, u ≠ t ∧ s.Woken u .pop) ∧
    (∀ t item, s.Asleep t (.push item) →
      s.queue.queue.length < maxSize ∨ s.queue.done = true →
      ∃ u item', u ≠ t ∧ s.Woken u (.push item')) := by
  obtain ⟨hm, hi⟩ := reachable_inv h
  constructor
  · rintro t ⟨-, ht⟩ (hqueue | hd)
    · obtain ⟨u, hu, hne⟩ := hi.items.exists_woken (List.length_pos_iff.mpr hqueue) ht
      exact ⟨u, hne, (hm.pops u).mp (.inr hu), hu⟩
    · change t ∈ s.notEmpty.sleeping at ht
      simp [(hi.down hd).2] at ht
  · rintro t item ⟨-, ht⟩ (hroom | hd)
    · obtain ⟨u, hu, hne⟩ := hi.slots.exists_woken (Nat.sub_pos_of_lt hroom) ht
      obtain ⟨item', hitem'⟩ := (hm.pushes u).mp (.inr hu)
      exact ⟨u, item', hne, hitem', hu⟩
    · change t ∈ s.notFull.sleeping at ht
      simp [(hi.down hd).1] at ht

/-- Two consumers sleep, a push wakes the first, and the second sleeps on beside the item. -/
theorem no_lost_wakeup_two_consumers :
    ∃ s : WaitingQueue (Fin 3) ℕ, (system (Fin 3) ℕ 1).Reachable s ∧ s.Asleep 1 .pop ∧
      s.queue.queue = [7] ∧ ∃ u, u ≠ 1 ∧ s.Woken u .pop := by
  let one : BoundedQueue ℕ := ⟨[7], 1, false, Nat.le_refl 1⟩
  have h₀ := TransitionSystem.Reachable.start (T := system (Fin 3) ℕ 1)
  have h₁ := h₀.step (.turn (t := 0) (.inl rfl) (.empty rfl))
  have h₂ := h₁.step (.turn (t := 1) (.inl rfl) (.empty rfl))
  let consumers := (ConditionVariable.idle.wait (0 : Fin 3)).wait 1
  let call : Fin 3 → Option (Request ℕ) := Function.update (Function.update
    (Function.update (fun _ => none) 0 (some .pop)) 1 (some .pop)) 2 none
  let s : WaitingQueue (Fin 3) ℕ := ⟨one, ConditionVariable.idle.leave 2, consumers.wake 0, call⟩
  have hwakes : NotifyOne consumers (consumers.wake 0) := .wakes (by decide)
  have hs : (system (Fin 3) ℕ 1).Reachable s :=
    h₂.step (.turn (t := 2) (.inl rfl) (.pushed (q := one) rfl hwakes))
  have hasleep : s.Asleep 1 .pop := ⟨rfl, by decide⟩
  have hitem : s.queue.queue ≠ [] := List.cons_ne_nil 7 []
  exact ⟨s, hs, hasleep, rfl, (no_lost_wakeup 1 s hs).1 1 hasleep (.inl hitem)⟩

end WaitingQueue

end Dataprint
