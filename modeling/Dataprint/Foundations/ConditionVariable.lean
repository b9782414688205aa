import Mathlib.Data.Finset.Card
import Mathlib.Tactic.Common

/-!
# Condition Variables

A condition variable seen through its threads: those asleep in a wait, and those that
were woken and have yet to retake the mutex.  A notification moves sleepers to the woken
ones, and which of them is not determined.

A guarded wait is for something countable (an item, a free slot).  `Covers c n` says that
as long as anybody sleeps, there is a woken thread for each of the `n` things there are.
Every operation keeps it in its own way, and it excludes lost wakeups:

- `Covers.notifyOne` — one thing more, after `notify_one`;
- `Covers.leave` — one thing less, when a thread leaves with it;
- `Covers.exists_woken` — no thread sleeps beside a thing that nobody will take.
-/

namespace Foundations

/-- The threads inside a wait on a condition variable. -/
structure ConditionVariable (Thread : Type*) where
  sleeping : Finset Thread
  woken : Finset Thread
  /-- a woken thread is not asleep -/
  disjoint : Disjoint sleeping woken

namespace ConditionVariable

variable {Thread : Type*}

/-- Nobody waits. -/
def idle : ConditionVariable Thread := ⟨∅, ∅, Finset.disjoint_empty_left _⟩

/-- A thread is inside the wait, asleep or woken. -/
def Waits (c : ConditionVariable Thread) (t : Thread) : Prop := t ∈ c.sleeping ∨ t ∈ c.woken

theorem not_waits_idle (t : Thread) : ¬ (idle : ConditionVariable Thread).Waits t := by
  simp [Waits, idle]

/-- While anybody sleeps, there is a woken thread for each of `n` things. -/
def Covers (c : ConditionVariable Thread) (n : ℕ) : Prop :=
  c.sleeping.Nonempty → n ≤ c.woken.card

theorem Covers.zero (c : ConditionVariable Thread) : c.Covers 0 := fun _ => Nat.zero_le _

/-- Nobody sleeps, so nobody is forgotten. -/
theorem Covers.of_sleeping_eq_empty {c : ConditionVariable Thread} (h : c.sleeping = ∅) (n : ℕ) :
    c.Covers n := fun hsleep => absurd h hsleep.ne_empty

theorem Covers.mono {c : ConditionVariable Thread} {m n : ℕ} (h : c.Covers n) (hmn : m ≤ n) :
    c.Covers m := fun hsleep => hmn.trans (h hsleep)

/-- **No lost wakeup**: beside a sleeper and a thing to take there is another thread, woken. -/
theorem Covers.exists_woken {c : ConditionVariable Thread} {n : ℕ} (h : c.Covers n) (hn : 0 < n)
    {t : Thread} (ht : t ∈ c.sleeping) : ∃ u ∈ c.woken, u ≠ t := by
  have hpos : 0 < c.woken.card := hn.trans_le (h ⟨t, ht⟩)
  obtain ⟨u, hu⟩ := Finset.card_pos.mp hpos
  refine ⟨u, hu, ?_⟩
  rintro rfl
  exact Finset.disjoint_left.mp c.disjoint ht hu

/-! ## Operations -/

variable [DecidableEq Thread]

/-- A thread finds its predicate false and goes to sleep, woken before or not. -/
def wait (c : ConditionVariable Thread) (t : Thread) : ConditionVariable Thread where
  sleeping := insert t c.sleeping
  woken := c.woken.erase t
  disjoint := by
    rw [Finset.disjoint_insert_left]
    exact ⟨Finset.notMem_erase t c.woken, c.disjoint.mono_right (Finset.erase_subset t c.woken)⟩

/-- A thread finds its predicate true and goes on, woken before or not. -/
def leave (c : ConditionVariable Thread) (t : Thread) : ConditionVariable Thread where
  sleeping := c.sleeping
  woken := c.woken.erase t
  disjoint := c.disjoint.mono_right (Finset.erase_subset t c.woken)

/-- A thread is woken. -/
def wake (c : ConditionVariable Thread) (t : Thread) : ConditionVariable Thread where
  sleeping := c.sleeping.erase t
  woken := insert t c.woken
  disjoint := by
    rw [Finset.disjoint_insert_right]
    exact ⟨Finset.notMem_erase t c.sleeping, c.disjoint.mono_left (Finset.erase_subset t c.sleeping)⟩

/-- `notify_all` -/
def notifyAll (c : ConditionVariable Thread) : ConditionVariable Thread where
  sleeping := ∅
  woken := c.woken ∪ c.sleeping
  disjoint := Finset.disjoint_empty_left _

/-- `notify_one`: any one sleeper is woken, if there is one. -/
inductive NotifyOne (c : ConditionVariable Thread) : ConditionVariable Thread → Prop where
  | nobody : c.sleeping = ∅ → NotifyOne c c
  | wakes {t : Thread} : t ∈ c.sleeping → NotifyOne c (c.wake t)

theorem waits_wait {c : ConditionVariable Thread} {t u : Thread} :
    (c.wait t).Waits u ↔ u = t ∨ c.Waits u := by
  simp only [Waits, wait, Finset.mem_insert, Finset.mem_erase]
  tauto

theorem waits_wake {c : ConditionVariable Thread} {t u : Thread} (ht : t ∈ c.sleeping) :
    (c.wake t).Waits u ↔ c.Waits u := by
  simp only [Waits, wake, Finset.mem_insert, Finset.mem_erase]
  by_cases h : u = t
  · subst h
    simp [ht]
  · simp [h]

theorem waits_notifyAll {c : ConditionVariable Thread} {t : Thread} :
    c.notifyAll.Waits t ↔ c.Waits t := by
  simp only [Waits, notifyAll, Finset.mem_union, Finset.notMem_empty, false_or]
  exact or_comm

theorem NotifyOne.waits_iff {c c' : ConditionVariable Thread} (h : NotifyOne c c') {t : Thread} :
    c'.Waits t ↔ c.Waits t := by
  cases h with
  | nobody => exact Iff.rfl
  | wakes ht => exact waits_wake ht

/-- A notification puts nobody to sleep. -/
theorem NotifyOne.sleeping_eq_empty {c c' : ConditionVariable Thread} (h : NotifyOne c c')
    (hnone : c.sleeping = ∅) : c'.sleeping = ∅ := by
  cases h with
  | nobody => exact hnone
  | wakes ht => simp [hnone] at ht

/-- A thread that is not asleep leaves the wait, and the others stay. -/
theorem waits_leave {c : ConditionVariable Thread} {t u : Thread} (ht : t ∉ c.sleeping) :
    (c.leave t).Waits u ↔ u ≠ t ∧ c.Waits u := by
  simp only [Waits, leave, Finset.mem_erase]
  by_cases h : u = t
  · subst h
    simp [ht]
  · simp [h]

/-! ## What keeps everything covered -/

/-- A sleeper that is woken, for a reason or without one. -/
theorem Covers.wake {c : ConditionVariable Thread} {n : ℕ} {t : Thread} (h : c.Covers n)
    (ht : t ∈ c.sleeping) : (c.wake t).Covers (n + 1) := by
  intro _
  have hcard : (c.wake t).woken.card = c.woken.card + 1 :=
    Finset.card_insert_of_notMem (Finset.disjoint_left.mp c.disjoint ht)
  rw [hcard]
  exact Nat.succ_le_succ (h ⟨t, ht⟩)

/-- **One thing more, and one notification.** -/
theorem Covers.notifyOne {c c' : ConditionVariable Thread} {n : ℕ} (h : c.Covers n)
    (hnotify : NotifyOne c c') : c'.Covers (n + 1) := by
  cases hnotify with
  | nobody hnone => exact .of_sleeping_eq_empty hnone _
  | wakes ht => exact h.wake ht

/-- **One thing less, taken by a thread that leaves**, be it a woken one or a newcomer. -/
theorem Covers.leave {c : ConditionVariable Thread} {n : ℕ} (h : c.Covers (n + 1)) (t : Thread) :
    (c.leave t).Covers n := by
  intro hsleep
  have hcard : c.woken.card - 1 ≤ (c.leave t).woken.card := Finset.pred_card_le_card_erase
  have := h hsleep
  omega

end ConditionVariable

end Foundations
