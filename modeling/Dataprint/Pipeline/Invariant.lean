import Dataprint.Pipeline.Machine

/-!
# Invariants of the Pipeline

What holds in every reachable state of a call of `run_pipeline`, whatever the workers
do with their items and however the threads are interleaved.

- `Inv` relates the main thread, the queue and the workers: a thread that has exited
  leaves a queue behind that is shut down, and drained unless the thread failed; before the
  main thread shuts the queue down, only a failed worker can have done it;
- `TraceInv` adds what the trace says: which chunks have been pushed, and that the slots of
  a worker are the outcome of running the loop body over the items it took.

Each is preserved by every rule of the machine (`Rule.inv`, `Rule.traceInv`), hence holds
after every run (`Run.inv`, `Run.traceInv`).
-/

namespace Dataprint.Pipeline

open Foundations

variable {J : Pipeline}

/-! ## Small facts about the steps -/

@[simp] theorem setWorker_main (s : State J) (i w q) : (s.setWorker i w q).main = s.main := rfl

@[simp] theorem setWorker_queue (s : State J) (i w q) : (s.setWorker i w q).queue = q := rfl

@[simp] theorem setWorker_started (s : State J) (i w q) :
    (s.setWorker i w q).started = s.started := rfl

@[simp] theorem setWorker_joined (s : State J) (i w q) :
    (s.setWorker i w q).joined = s.joined := rfl

@[simp] theorem setWorker_same (s : State J) (i w q) : (s.setWorker i w q).workers i = w :=
  Function.update_self ..

theorem setWorker_other (s : State J) {i j : Fin J.numWorkers} (h : j ≠ i) (w q) :
    (s.setWorker i w q).workers j = s.workers j :=
  Function.update_of_ne h ..

theorem push_done {q q' : BoundedQueue WorkItem} {item : WorkItem} {accepted : Bool}
    (h : q.push item = some (accepted, q')) : q'.done = q.done := by
  rcases BoundedQueue.push_cases h with ⟨-, -, rfl⟩ | ⟨-, hdone, -, -, hdone'⟩
  · rfl
  · rw [hdone, hdone']

section WorkerRule

variable {A : Type} {body : WorkItem → EStateM Exn A Unit} {w w' : Worker A}
variable {q q' : BoundedQueue WorkItem} {e : WorkerEvent}

theorem WorkerRule.not_exited (h : WorkerRule body w q e w' q') : w.pc ≠ .exited := by
  cases h <;> simp_all

/-- No worker reopens the queue. -/
theorem WorkerRule.done_mono (h : WorkerRule body w q e w' q') (hdone : q.done = true) :
    q'.done = true := by
  cases h with
  | exit hpc hpop => rwa [(BoundedQueue.pop_none hpop).2.2]
  | take hpc hpop => rwa [(BoundedQueue.pop_some hpop).2.2]
  | process hpc hrun => exact hdone
  | throw hpc hrun => exact hdone
  | shutdown hpc => rfl

/-- Only the handler of a failed worker shuts the queue down. -/
theorem WorkerRule.done_cases (h : WorkerRule body w q e w' q') (hdone : q'.done = true) :
    q.done = true ∨ w.pc = .caught := by
  cases h with
  | exit hpc hpop => exact .inl (BoundedQueue.pop_none hpop).2.1
  | take hpc hpop => exact .inl ((BoundedQueue.pop_some hpop).2.2 ▸ hdone)
  | process hpc hrun => exact .inl hdone
  | throw hpc hrun => exact .inl hdone
  | shutdown hpc => exact .inr hpc

/-- A thread exits on a queue that is shut down. -/
theorem WorkerRule.exited_done (h : WorkerRule body w q e w' q') (hexit : w'.pc = .exited) :
    q'.done = true := by
  cases h with
  | exit hpc hpop =>
    obtain ⟨-, hdone, rfl⟩ := BoundedQueue.pop_none hpop
    exact hdone
  | take hpc hpop => cases hexit
  | process hpc hrun => cases hexit
  | throw hpc hrun => cases hexit
  | shutdown hpc => rfl

/-- Workers take items out of the queue only. -/
theorem WorkerRule.queue_nil (h : WorkerRule body w q e w' q') (hnil : q.queue = []) :
    q'.queue = [] := by
  cases h with
  | exit hpc hpop => rwa [(BoundedQueue.pop_none hpop).2.2]
  | take hpc hpop =>
    have hcons := (BoundedQueue.pop_some hpop).1
    simp [hnil] at hcons
  | process hpc hrun => exact hnil
  | throw hpc hrun => exact hnil
  | shutdown hpc => exact hnil

end WorkerRule

/-! ## The invariant -/

/-- What every reachable state satisfies. -/
structure Inv (s : State J) : Prop where
  started_le : s.started ≤ J.numWorkers
  /-- all threads run before `chunk` is called -/
  started_eq : s.main ≠ .spawning → s.started = J.numWorkers
  joined_le : s.joined ≤ J.numWorkers
  joined_exited : ∀ i : Fin J.numWorkers, i < s.joined → (s.workers i).pc = .exited
  exited_done : ∀ i, (s.workers i).pc = .exited → s.queue.done = true
  /-- a thread that has not failed exits when nothing is left to do -/
  drained : ∀ i, (s.workers i).pc = .exited → (s.workers i).exception = none →
    s.queue.queue = []
  caught_exception : ∀ i, (s.workers i).pc = .caught → (s.workers i).exception ≠ none
  joining_done : s.main = .joining → s.queue.done = true
  /-- before the main thread shuts the queue down, a failed worker must have done it -/
  blame : s.queue.done = true →
    s.main = .joining ∨ s.main.isLeft = true ∨ ∃ i, (s.workers i).exception ≠ none
  chunkEnd_ok : s.main = .stopping ∨ s.main = .joining → J.chunkEnd = .ok ()
  /-- there are two ways out -/
  left_cases : ∀ r, s.main = .left r →
    (∃ e, J.chunkEnd = .error e ∧ r = .error e) ∨
    (J.chunkEnd = .ok () ∧ s.queue.done = true ∧ s.joined = J.numWorkers ∧
      (∀ i, (s.workers i).pc = .exited) ∧ r = J.collect s.workers)

theorem Inv.start : Inv J.start where
  started_le := Nat.zero_le _
  started_eq h := absurd rfl h
  joined_le := Nat.zero_le _
  joined_exited i h := absurd h (Nat.not_lt_zero _)
  exited_done i h := by cases h
  drained i h := by cases h
  caught_exception i h := by cases h
  joining_done h := by cases h
  blame h := by cases h
  chunkEnd_ok h := by rcases h with h | h <;> cases h
  left_cases r h := by cases h

/-- A step of a worker keeps the invariant. -/
theorem Inv.worker {s : State J} {i : Fin J.numWorkers} {e : WorkerEvent}
    {w : Worker J.policy.Accumulator} {q : BoundedQueue WorkItem} (h : Inv s)
    (hleft : s.main.isLeft = false) (hrule : WorkerRule J.body (s.workers i) s.queue e w q) :
    Inv (s.setWorker i w q) where
  started_le := h.started_le
  started_eq := h.started_eq
  joined_le := h.joined_le
  joined_exited j hj := by
    by_cases hij : j = i
    · -- a joined thread has exited and does not step
      exact absurd (h.joined_exited i (hij ▸ hj)) hrule.not_exited
    · rw [setWorker_other s hij]
      exact h.joined_exited j hj
  exited_done j hj := by
    by_cases hij : j = i
    · subst hij
      rw [setWorker_same] at hj
      exact hrule.exited_done hj
    · rw [setWorker_other s hij] at hj
      exact hrule.done_mono (h.exited_done j hj)
  drained j hj hexc := by
    by_cases hij : j = i
    · subst hij
      rw [setWorker_same] at hj hexc
      cases hrule with
      | exit hpc hpop =>
        obtain ⟨hnil, -, rfl⟩ := BoundedQueue.pop_none hpop
        exact hnil
      | take hpc hpop => cases hj
      | process hpc hrun => cases hj
      | throw hpc hrun => cases hj
      | shutdown hpc => exact absurd hexc (h.caught_exception j hpc)
    · rw [setWorker_other s hij] at hj hexc
      exact hrule.queue_nil (h.drained j hj hexc)
  caught_exception j hj := by
    by_cases hij : j = i
    · subst hij
      rw [setWorker_same] at hj ⊢
      cases hrule with
      | throw hpc hrun => exact Option.some_ne_none _
      | _ => cases hj
    · rw [setWorker_other s hij] at hj ⊢
      exact h.caught_exception j hj
  joining_done hmain := hrule.done_mono (h.joining_done hmain)
  blame hdone := by
    -- an exception slot is never cleared
    have hkeep : ∀ j, (s.workers j).exception ≠ none →
        ((s.setWorker i w q).workers j).exception ≠ none := by
      intro j hj
      by_cases hij : j = i
      · subst hij
        rw [setWorker_same]
        cases hrule with
        | throw hpc hrun => exact Option.some_ne_none _
        | _ => exact hj
      · rwa [setWorker_other s hij]
    rcases hrule.done_cases hdone with hd | hcaught
    · rcases h.blame hd with hjoin | hl | ⟨j, hj⟩
      · exact .inl hjoin
      · exact .inr (.inl hl)
      · exact .inr (.inr ⟨j, hkeep j hj⟩)
    · exact .inr (.inr ⟨i, hkeep i (h.caught_exception i hcaught)⟩)
  chunkEnd_ok := h.chunkEnd_ok
  left_cases r hr := by
    rw [setWorker_main] at hr
    simp [hr, MainPc.isLeft] at hleft

/-- Before the main thread joins, only a failed worker can have shut the queue down. -/
theorem Inv.exists_failed {s : State J} (h : Inv s) (hjoin : s.main ≠ .joining)
    (hleft : s.main.isLeft = false) (hdone : s.queue.done = true) :
    ∃ i, (s.workers i).exception ≠ none := by
  rcases h.blame hdone with hmain | hmain | hfailed
  · exact absurd hmain hjoin
  · simp [hleft] at hmain
  · exact hfailed

/-- A push of the main thread keeps the invariant: it is refused once a worker has exited. -/
theorem Inv.push {s : State J} (h : Inv s) {item : WorkItem} {accepted : Bool}
    {q : BoundedQueue WorkItem} (hpush : s.queue.push item = some (accepted, q)) :
    Inv { s with queue := q } := by
  have hdone := push_done hpush
  exact { h with
    exited_done := fun i hi => hdone ▸ h.exited_done i hi
    drained := fun i hi hexc => by
      have hd := h.exited_done i hi
      rcases BoundedQueue.push_cases hpush with ⟨-, -, rfl⟩ | ⟨-, hopen, -⟩
      · exact h.drained i hi hexc
      · simp [hd] at hopen
    joining_done := fun hj => hdone ▸ h.joining_done hj
    blame := fun hd => h.blame (hdone ▸ hd)
    left_cases := fun r hr => by
      rw [hdone]
      exact h.left_cases r hr }

/-- The main thread moves on before its shutdown. -/
theorem Inv.advance {s : State J} (h : Inv s) (hstarted : s.started = J.numWorkers)
    (hjoin : s.main ≠ .joining) (hleft : s.main.isLeft = false)
    {main : MainPc J.policy.Accumulator} (hjoin' : main ≠ .joining) (hleft' : main.isLeft = false)
    (hend : main = .stopping → J.chunkEnd = .ok ()) : Inv { s with main := main } :=
  { h with
    started_eq := fun _ => hstarted
    joining_done := fun hj => absurd hj hjoin'
    blame := fun hd => .inr (.inr (h.exists_failed hjoin hleft hd))
    chunkEnd_ok := fun hc => hc.elim hend fun hj => absurd hj hjoin'
    left_cases := fun r hr => by
      have hnot : main.isLeft = true := by rw [show main = .left r from hr]; rfl
      simp [hleft'] at hnot }

/-- The main thread leaves in one of the two ways. -/
theorem Inv.leave {s : State J} (h : Inv s) (hstarted : s.started = J.numWorkers)
    {r : Except Exn J.policy.Accumulator}
    (hcases : (∃ e, J.chunkEnd = .error e ∧ r = .error e) ∨
      (J.chunkEnd = .ok () ∧ s.queue.done = true ∧ s.joined = J.numWorkers ∧
        (∀ i, (s.workers i).pc = .exited) ∧ r = J.collect s.workers)) :
    Inv { s with main := .left r } :=
  { h with
    started_eq := fun _ => hstarted
    joining_done := fun hj => by cases hj
    blame := fun _ => .inr (.inl rfl)
    chunkEnd_ok := fun hc => by rcases hc with hc | hc <;> cases hc
    left_cases := fun r' hr => by
      cases hr
      exact hcases }

/-- **Every step keeps the invariant.** -/
theorem Rule.inv {s s' : State J} {l : Event J.numWorkers} (hrule : Rule s l s') (h : Inv s) :
    Inv s' := by
  cases hrule with
  | spawn hmain hlt =>
    exact { h with
      started_le := hlt
      started_eq := fun hne => absurd hmain hne }
  | callChunk hmain hge =>
    exact h.advance (Nat.le_antisymm h.started_le hge) (by simp [hmain]) (by simp [hmain, MainPc.isLeft])
      (by simp) rfl (by simp)
  | push hmain hitem hpush =>
    exact (h.push hpush).advance (h.started_eq (by simp [hmain])) (by simp [hmain])
      (by simp [hmain, MainPc.isLeft]) (by simp) rfl (by simp)
  | effect hmain hitem =>
    exact h.advance (h.started_eq (by simp [hmain])) (by simp [hmain]) (by simp [hmain, MainPc.isLeft])
      (by simp) rfl (by simp)
  | chunkReturns hmain hend =>
    -- `chunk` has come to its end without a throw
    exact h.advance (h.started_eq (by simp [hmain])) (by simp [hmain]) (by simp [hmain, MainPc.isLeft])
      (by simp) rfl fun _ => hend
  | @chunkThrows e hmain hend =>
    exact h.leave (h.started_eq (by simp [hmain])) (.inl ⟨e, hend, rfl⟩)
  | shutdown hmain =>
    -- from here on the queue is shut down
    exact { h with
      started_eq := fun _ => h.started_eq (by simp [hmain])
      exited_done := fun _ _ => rfl
      joining_done := fun _ => rfl
      blame := fun _ => .inl rfl
      chunkEnd_ok := fun _ => h.chunkEnd_ok (.inl hmain)
      left_cases := fun r hr => by cases hr }
  | join hlt hmain hexit =>
    exact { h with
      joined_le := hlt
      joined_exited := fun i hi => by
        -- the thread that is joined now has exited, the others before it had
        rcases Nat.lt_succ_iff_lt_or_eq.mp hi with hi | hi
        · exact h.joined_exited i hi
        · have hi' : i = ⟨s.joined, hlt⟩ := Fin.ext hi
          rw [hi']
          exact hexit
      left_cases := fun r hr => by simp [hmain] at hr }
  | finish hmain hge =>
    have hall : s.joined = J.numWorkers := Nat.le_antisymm h.joined_le hge
    -- every thread was joined, so every one has exited
    have hexited : ∀ i, (s.workers i).pc = .exited :=
      fun i => h.joined_exited i (by rw [hall]; exact i.isLt)
    exact h.leave (h.started_eq (by simp [hmain]))
      (.inr ⟨h.chunkEnd_ok (.inr hmain), h.joining_done hmain, hall, hexited, rfl⟩)
  | worker hstarted hleft hworker => exact h.worker hleft hworker

theorem Reachable.inv {s : State J} (h : (system J).Reachable s) : Inv s :=
  h.induct .start fun _ _ _ _ hi hst => (step_rule hst).inv hi

theorem Run.inv {tr : List (Event J.numWorkers)} {s : State J} (h : (system J).Run tr s) : Inv s :=
  Reachable.inv ⟨tr, h⟩

/-! ## What a trace says -/

section Trace

variable {n : ℕ}

/-- The items popped in order, each with the worker that took it. -/
def pops (tr : List (Event n)) : List (Fin n × WorkItem) :=
  tr.filterMap fun
    | .worker i (.pop (some item)) => some (i, item)
    | _ => none

/-- The items a worker has taken, in order. -/
def taken (i : Fin n) (tr : List (Event n)) : List WorkItem :=
  ((pops tr).filter fun p => p.1 = i).map Prod.snd

/-- The pushes of the main thread in order, with their answers. -/
def pushed (tr : List (Event n)) : List (WorkItem × Bool) :=
  tr.filterMap fun
    | .main (.push item accepted) => some (item, accepted)
    | _ => none

/-- The item that a step takes out of the queue. -/
def WorkerEvent.taken? : WorkerEvent → List WorkItem
  | .pop (some item) => [item]
  | _ => []

theorem taken_snoc_main (i : Fin n) (tr : List (Event n)) (e : MainEvent) :
    taken i (tr ++ [.main e]) = taken i tr := by
  simp [taken, pops]

theorem taken_snoc_worker (i j : Fin n) (tr : List (Event n)) (e : WorkerEvent) :
    taken j (tr ++ [.worker i e]) = if i = j then taken j tr ++ e.taken? else taken j tr := by
  unfold taken pops WorkerEvent.taken?
  split
  case isTrue hij =>
    subst hij
    cases e with
    | pop item => cases item <;> simp
    | process item thrown => simp
    | shutdown => simp
  case isFalse hij =>
    cases e with
    | pop item => cases item <;> simp [hij]
    | process item thrown => simp
    | shutdown => simp

/-- The pops of the trace are the pops of the queue. -/
theorem popped_calls (tr : List (Event n)) :
    BoundedQueue.popped (calls tr) = (pops tr).map Prod.snd := by
  simp only [BoundedQueue.popped, calls, pops, List.filterMap_filterMap, List.map_filterMap]
  congr 1
  funext l
  rcases l with e | ⟨i, e⟩
  · cases e <;> rfl
  · rcases e with (_ | item) | ⟨item, thrown⟩ | _ <;> rfl

/-- The accepted items of the queue are those of the pushes that were answered `true`. -/
theorem accepted_calls (tr : List (Event n)) :
    BoundedQueue.accepted (calls tr) =
      (pushed tr).filterMap fun p => if p.2 then some p.1 else none := by
  simp only [BoundedQueue.accepted, calls, pushed, List.filterMap_filterMap]
  congr 1
  funext l
  rcases l with e | ⟨i, e⟩
  · rcases e with _ | _ | _ | ⟨item, _ | _⟩ | _ | _ | _ | _ | _ <;> rfl
  · rcases e with (_ | item) | ⟨item, thrown⟩ | _ <;> rfl

end Trace

/-- The slots of a worker that has taken `items`: the outcome of the loop body over them, in order,
less the item in hand. -/
def Worker.Consistent {A : Type} (body : WorkItem → EStateM Exn A Unit) (init : A)
    (items : List WorkItem) (w : Worker A) : Prop :=
  match w.pc, w.exception with
  | .popping, none | .exited, none => (forM items body).run init = .ok () w.result
  | .holding item, none =>
    ∃ before, items = before ++ [item] ∧ (forM before body).run init = .ok () w.result
  | .caught, some e | .exited, some e => (forM items body).run init = .error e w.result
  | _, _ => False

/-- One step of a worker keeps its slots consistent with the items taken. -/
theorem WorkerRule.consistent {A : Type} {body : WorkItem → EStateM Exn A Unit} {init : A}
    {w w' : Worker A} {q q' : BoundedQueue WorkItem} {e : WorkerEvent} {items : List WorkItem}
    (h : WorkerRule body w q e w' q') (hw : w.Consistent body init items) :
    w'.Consistent body init (items ++ e.taken?) := by
  obtain ⟨pc, result, exception⟩ := w
  cases h with
  | exit hpc hpop =>
    cases hpc
    cases exception with
    | none => simpa [Worker.Consistent, WorkerEvent.taken?] using hw
    | some e => simp [Worker.Consistent] at hw
  | take hpc hpop =>
    cases hpc
    cases exception with
    | none => exact ⟨items, rfl, by simpa [Worker.Consistent] using hw⟩
    | some e => simp [Worker.Consistent] at hw
  | process hpc hrun =>
    cases hpc
    cases exception with
    | none =>
      obtain ⟨before, rfl, hbefore⟩ := hw
      simp [Worker.Consistent, WorkerEvent.taken?, hbefore, hrun]
    | some e => simp [Worker.Consistent] at hw
  | throw hpc hrun =>
    cases hpc
    cases exception with
    | none =>
      obtain ⟨before, rfl, hbefore⟩ := hw
      simp [Worker.Consistent, WorkerEvent.taken?, hbefore, hrun]
    | some e => simp [Worker.Consistent] at hw
  | shutdown hpc =>
    cases hpc
    cases exception with
    | none => simp [Worker.Consistent] at hw
    | some e => simpa [Worker.Consistent, WorkerEvent.taken?] using hw

/-- The effects of `chunk` that are still to come. -/
def MainPc.rest {A : Type} (effects : List Effect) : MainPc A → List Effect
  | .spawning => effects
  | .chunking rest => rest
  | _ => []

/-- What the trace of a run says about the state it leads to. -/
structure TraceInv (tr : List (Event J.numWorkers)) (s : State J) : Prop where
  worker : ∀ i, (s.workers i).Consistent J.body J.policy.init (taken i tr)
  /-- the chunks are pushed in order, each once -/
  pushed_eq : (pushed tr).map Prod.fst ++ pushes (s.main.rest J.effects) = pushes J.effects
  /-- a push is refused only after some worker has failed -/
  refused : ∀ item, (item, false) ∈ pushed tr → ∃ i, (s.workers i).exception ≠ none
  thrown : ∀ i item e, .worker i (.process item (some e)) ∈ tr → (s.workers i).exception = some e

theorem TraceInv.start : TraceInv [] J.start where
  worker i := rfl
  pushed_eq := rfl
  refused item h := by cases h
  thrown i item e h := by cases h

/-- A worker that can step has not failed yet, or keeps its exception. -/
theorem WorkerRule.exception_mono {A : Type} {body : WorkItem → EStateM Exn A Unit} {init : A}
    {w w' : Worker A} {q q' : BoundedQueue WorkItem} {e : WorkerEvent} {items : List WorkItem}
    (h : WorkerRule body w q e w' q') (hw : w.Consistent body init items) {x : Exn}
    (hx : w.exception = some x) : w'.exception = some x := by
  cases h with
  | throw hpc hrun => simp [Worker.Consistent, hpc, hx] at hw
  | _ => exact hx

/-- A step of a worker keeps what the trace says. -/
theorem TraceInv.step_worker {tr : List (Event J.numWorkers)} {s : State J}
    {i : Fin J.numWorkers} {e : WorkerEvent} {w : Worker J.policy.Accumulator}
    {q : BoundedQueue WorkItem} (h : TraceInv tr s)
    (hrule : WorkerRule J.body (s.workers i) s.queue e w q) :
    TraceInv (tr ++ [.worker i e]) (s.setWorker i w q) := by
  have hkeep : ∀ j x, (s.workers j).exception = some x →
      ((s.setWorker i w q).workers j).exception = some x := by
    intro j x hx
    by_cases hij : j = i
    · subst hij
      rw [setWorker_same]
      exact hrule.exception_mono (h.worker j) hx
    · rwa [setWorker_other s hij]
  have hpushed : pushed (tr ++ [.worker i e]) = pushed tr := by simp [pushed]
  refine ⟨fun j => ?_, ?_, ?_, ?_⟩
  · rw [taken_snoc_worker]
    by_cases hij : j = i
    · subst hij
      rw [setWorker_same, if_pos rfl]
      exact hrule.consistent (h.worker j)
    · rw [setWorker_other s hij, if_neg (Ne.symm hij)]
      exact h.worker j
  · rw [hpushed]
    exact h.pushed_eq
  · intro item hitem
    rw [hpushed] at hitem
    obtain ⟨j, hj⟩ := h.refused item hitem
    obtain ⟨x, hx⟩ := Option.ne_none_iff_exists'.mp hj
    exact ⟨j, by simp [hkeep j x hx]⟩
  · intro j item x hmem
    rcases List.mem_append.mp hmem with hmem | hmem
    · exact hkeep j x (h.thrown j item x hmem)
    · -- the step itself stores the exception
      cases List.mem_singleton.mp hmem
      rw [setWorker_same]
      cases hrule with
      | throw hpc hrun => rfl

/-- A step of the main thread that pushes nothing. -/
theorem TraceInv.step_main {tr : List (Event J.numWorkers)} {s s' : State J} {e : MainEvent}
    (h : TraceInv tr s) (hpushed : pushed (tr ++ [.main e]) = pushed tr)
    (hworkers : s'.workers = s.workers)
    (hrest : pushes (s'.main.rest J.effects) = pushes (s.main.rest J.effects)) :
    TraceInv (tr ++ [.main e]) s' where
  worker i := by
    rw [taken_snoc_main, hworkers]
    exact h.worker i
  pushed_eq := by
    rw [hpushed, hrest]
    exact h.pushed_eq
  refused item hitem := by
    rw [hworkers]
    exact h.refused item (hpushed ▸ hitem)
  thrown i item x hmem := by
    rw [hworkers]
    exact h.thrown i item x (by simpa using hmem)

/-- **Every step keeps what the trace says.** -/
theorem Rule.traceInv {tr : List (Event J.numWorkers)} {s s' : State J} {l : Event J.numWorkers}
    (hrule : Rule s l s') (hinv : Inv s) (h : TraceInv tr s) : TraceInv (tr ++ [l]) s' := by
  cases hrule with
  | spawn hmain hlt => exact h.step_main (by simp [pushed]) rfl rfl
  | callChunk hmain hge => exact h.step_main (by simp [pushed]) rfl (by simp [hmain, MainPc.rest])
  | @push effect rest item accepted q hmain hitem hpush =>
    have heq := h.pushed_eq
    simp only [hmain, MainPc.rest, pushes, List.filterMap_cons, hitem] at heq
    refine ⟨fun i => ?_, ?_, ?_, ?_⟩
    · rw [taken_snoc_main]
      exact h.worker i
    · -- the pushed item moves from the effects to come to the trace
      simpa [pushed, MainPc.rest, pushes] using heq
    · intro item' hmem
      have hmem' : (item', false) ∈ pushed tr ∨ item' = item ∧ accepted = false := by
        simpa [pushed] using hmem
      rcases hmem' with hmem' | ⟨-, rfl⟩
      · exact h.refused item' hmem'
      · rcases BoundedQueue.push_cases hpush with ⟨-, hdone, -⟩ | ⟨htrue, -⟩
        · exact hinv.exists_failed (by simp [hmain]) (by simp [hmain, MainPc.isLeft]) hdone
        · cases htrue
    · intro i item' x hmem
      exact h.thrown i item' x (by simpa using hmem)
  | effect hmain hitem =>
    refine h.step_main (by simp [pushed]) rfl ?_
    simp [hmain, MainPc.rest, pushes, hitem]
  | chunkReturns hmain hend =>
    exact h.step_main (by simp [pushed]) rfl (by simp [hmain, MainPc.rest])
  | chunkThrows hmain hend =>
    exact h.step_main (by simp [pushed]) rfl (by simp [hmain, MainPc.rest])
  | shutdown hmain => exact h.step_main (by simp [pushed]) rfl (by simp [hmain, MainPc.rest])
  | join hlt hmain hexit => exact h.step_main (by simp [pushed]) rfl rfl
  | finish hmain hge => exact h.step_main (by simp [pushed]) rfl (by simp [hmain, MainPc.rest])
  | worker hstarted hleft hworker => exact h.step_worker hworker

theorem Run.traceInv {tr : List (Event J.numWorkers)} {s : State J} (h : (system J).Run tr s) :
    TraceInv tr s :=
  h.induct .start fun _ _ _ _ hrun hi hst => (step_rule hst).traceInv (Run.inv hrun) hi

end Dataprint.Pipeline
