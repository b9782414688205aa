import Dataprint.BoundedQueue
import Dataprint.Chunk
import Dataprint.Policies
import Mathlib.Data.PNat.Defs

/-!
# The Pipeline as a Machine

`Processor::run_pipeline` starts `num_workers_` threads that pop chunks from a bounded
queue, pushes the chunks of a file from the main thread, shuts the queue down, joins the
threads and reduces their results (`include/processor.h`).

Every thread is sequential code, so a thread has at most one next step: `mainStep` and
`workerStep` compute it, with `none` for a thread that is blocked or has ended.  A
scheduler picks the thread that moves, which makes the call a transition system,
`Pipeline.system`.

- `Rule` lists what the steps are, and `step_rule` says that there are no others;
- `schedule` runs the machine for a given choice of threads;
- `calls` is the history of the queue inside a trace.  `Run.queue_run` says that the
  pipeline uses the queue through its methods only.
-/

namespace Dataprint

open Foundations

/-- `num_workers_`, for a positive value of `std::thread::hardware_concurrency()`. -/
def numWorkers (hardwareConcurrency : ℕ+) : ℕ := hardwareConcurrency - 1

/-- One call of `run_pipeline`. -/
structure Pipeline where
  policy : Policy
  numWorkers : ℕ
  /-- what the call of `chunk` does in order -/
  effects : List Effect
  /-- and how it ends -/
  chunkEnd : Except Exn Unit
  /-- what a worker does with an item it has popped -/
  body : WorkItem → EStateM Exn policy.Accumulator Unit

/-- `run_pipeline` for a file. -/
def runPipeline (policy : Policy) (numWorkers : ℕ) (file : File) (chunkSize : ℕ)
    (body : WorkItem → EStateM Exn policy.Accumulator Unit) : Pipeline where
  policy := policy
  numWorkers := numWorkers
  effects := (chunkCall file chunkSize).1
  chunkEnd := (chunkCall file chunkSize).2
  body := body

namespace Pipeline

/-! ## A worker thread -/

/-- Where a worker thread stands. -/
inductive WorkerPc where
  /-- at `queue.pop()` -/
  | popping
  /-- with an item in hand -/
  | holding (item : WorkItem)
  /-- in the handler: the exception is stored, `queue.shutdown()` is next -/
  | caught
  | exited
  deriving DecidableEq

/-- A worker thread, with its slots `results[i]` and `exceptions[i]`. -/
structure Worker (A : Type) where
  pc : WorkerPc
  result : A
  exception : Option Exn

/-- What a worker does in one step. -/
inductive WorkerEvent where
  | pop (item : Option WorkItem)
  | process (item : WorkItem) (thrown : Option Exn)
  | shutdown
  deriving DecidableEq

/-- The next step of a worker.  The work on one item touches the result slot of the worker
only, so it is one step. -/
def workerStep {A : Type} (body : WorkItem → EStateM Exn A Unit) (w : Worker A)
    (q : BoundedQueue WorkItem) : Option (WorkerEvent × Worker A × BoundedQueue WorkItem) :=
  match w.pc with
  | .popping =>
    match q.pop with
    -- the queue is empty and open: the thread waits
    | none => none
    -- shut down and empty: the loop ends
    | some (none, q') => some (.pop none, { w with pc := .exited }, q')
    | some (some item, q') => some (.pop (some item), { w with pc := .holding item }, q')
  | .holding item =>
    match (body item).run w.result with
    | .ok _ result => some (.process item none, { w with pc := .popping, result := result }, q)
    -- the catch block stores the exception before it shuts the queue down
    | .error e result => some (.process item (some e), ⟨.caught, result, some e⟩, q)
  | .caught => some (.shutdown, { w with pc := .exited }, q.shutdown)
  | .exited => none

/-! ## The main thread -/

/-- Where the main thread stands in `run_pipeline`. -/
inductive MainPc (A : Type) where
  /-- in the loop that starts the threads -/
  | spawning
  /-- in `chunk`, with these effects to come -/
  | chunking (rest : List Effect)
  /-- at `queue.shutdown()` -/
  | stopping
  /-- in the loop that joins the threads -/
  | joining
  /-- `run_pipeline` has been left, normally or by an exception -/
  | left (result : Except Exn A)

/-- What the main thread does in one step. -/
inductive MainEvent where
  | spawn
  | callChunk
  | effect (effect : Effect)
  | push (item : WorkItem) (accepted : Bool)
  | chunkReturns
  | chunkThrows
  | shutdown
  | join
  | finish
  deriving DecidableEq

/-- The state of a call: the main thread, the queue, the workers, how many threads have been
started and how many have been joined. -/
structure State (J : Pipeline) where
  main : MainPc J.policy.Accumulator
  queue : BoundedQueue WorkItem
  workers : Fin J.numWorkers → Worker J.policy.Accumulator
  started : ℕ
  joined : ℕ

variable (J : Pipeline)

/-- All locals constructed, no thread started. -/
def start : State J where
  main := .spawning
  queue := .new (J.numWorkers * 4)
  workers := fun _ => ⟨.popping, J.policy.init, none⟩
  started := 0
  joined := 0

/-- What follows the joins: the first stored exception is thrown again, or all results are
reduced into a fresh accumulator. -/
def collect (workers : Fin J.numWorkers → Worker J.policy.Accumulator) :
    Except Exn J.policy.Accumulator :=
  match (List.ofFn fun i => (workers i).exception).findSome? id with
  | some e => .error e
  | none =>
    match (forM (List.ofFn fun i => (workers i).result) J.policy.reduce).run J.policy.init with
    | .ok _ glob => .ok glob
    | .error e _ => .error e

variable {J}

/-- The next step of the main thread. -/
def mainStep (s : State J) : Option (MainEvent × State J) :=
  match s.main with
  | .spawning =>
    if s.started < J.numWorkers then
      some (.spawn, { s with started := s.started + 1 })
    else
      some (.callChunk, { s with main := .chunking J.effects })
  | .chunking (effect :: rest) =>
    match effect.item? with
    | some item =>
      match s.queue.push item with
      -- the queue is full and open: the thread waits
      | none => none
      -- `chunk` does not look at the answer
      | some (accepted, q) =>
        some (.push item accepted, { s with main := .chunking rest, queue := q })
    | none => some (.effect effect, { s with main := .chunking rest })
  | .chunking [] =>
    match J.chunkEnd with
    | .ok _ => some (.chunkReturns, { s with main := .stopping })
    -- nothing catches this one: the threads are destroyed as they are
    | .error e => some (.chunkThrows, { s with main := .left (.error e) })
  | .stopping => some (.shutdown, { s with main := .joining, queue := s.queue.shutdown })
  | .joining =>
    -- the threads are joined in the order of their indices
    if h : s.joined < J.numWorkers then
      if (s.workers ⟨s.joined, h⟩).pc = .exited then
        some (.join, { s with joined := s.joined + 1 })
      else
        none
    else
      some (.finish, { s with main := .left (J.collect s.workers) })
  | .left _ => none

/-! ## The system -/

/-- What `run_pipeline` has been left with, if it has. -/
def MainPc.result? {A : Type} : MainPc A → Option (Except Exn A)
  | .left r => some r
  | _ => none

theorem MainPc.result?_eq_some {A : Type} {pc : MainPc A} {r : Except Exn A} :
    pc.result? = some r ↔ pc = .left r := by
  cases pc <;> simp [MainPc.result?]

/-- `run_pipeline` has been left. -/
def MainPc.isLeft {A : Type} : MainPc A → Bool
  | .left _ => true
  | _ => false

/-- The worker `i` in the next state. -/
def State.setWorker (s : State J) (i : Fin J.numWorkers) (w : Worker J.policy.Accumulator)
    (q : BoundedQueue WorkItem) : State J :=
  { s with workers := Function.update s.workers i w, queue := q }

/-- A step of some thread. -/
inductive Event (n : ℕ) where
  | main (event : MainEvent)
  | worker (i : Fin n) (event : WorkerEvent)
  deriving DecidableEq

/-- The next step of a thread, the main thread being `none`.  A worker moves once it has been
started; nothing moves after the call has been left. -/
def threadStep (s : State J) : Option (Fin J.numWorkers) → Option (Event J.numWorkers × State J)
  | none => (mainStep s).map fun (e, s') => (.main e, s')
  | some i =>
    if i < s.started ∧ s.main.isLeft = false then
      (workerStep J.body (s.workers i) s.queue).map fun (e, w, q) =>
        (.worker i e, s.setWorker i w q)
    else
      none

/-- Any thread that can move may move. -/
def Step (s : State J) (l : Event J.numWorkers) (s' : State J) : Prop :=
  ∃ thread, threadStep s thread = some (l, s')

variable (J) in
/-- The call as a transition system. -/
def system : TransitionSystem (State J) (Event J.numWorkers) where
  start := J.start
  step := Step

/-- Runs the threads of a schedule one after another. -/
def schedule : List (Option (Fin J.numWorkers)) → State J →
    Option (List (Event J.numWorkers) × State J)
  | [], s => some ([], s)
  | thread :: threads, s =>
    match threadStep s thread with
    | none => none
    | some (l, s') => (schedule threads s').map fun (tr, s'') => (l :: tr, s'')

/-- A schedule that never picks a blocked thread is a path. -/
theorem schedule_path {threads : List (Option (Fin J.numWorkers))} {s s' : State J}
    {tr : List (Event J.numWorkers)} (h : schedule threads s = some (tr, s')) :
    (system J).Path s tr s' := by
  induction threads generalizing s tr with
  | nil =>
    simp only [schedule, Option.some.injEq, Prod.mk.injEq] at h
    obtain ⟨rfl, rfl⟩ := h
    exact .nil _
  | cons thread threads ih =>
    rw [schedule] at h
    split at h
    case h_1 => cases h
    case h_2 l s₁ hst =>
      obtain ⟨⟨tr', s''⟩, hrest, heq⟩ := Option.map_eq_some_iff.mp h
      cases heq
      exact .cons ⟨thread, hst⟩ (ih hrest)

/-- A schedule that is run from the start is a run. -/
theorem schedule_run {threads : List (Option (Fin J.numWorkers))} {s : State J}
    {tr : List (Event J.numWorkers)} (h : schedule threads J.start = some (tr, s)) :
    (system J).Run tr s := by
  have hrun := TransitionSystem.Run.start.append_path (schedule_path h)
  rwa [List.nil_append] at hrun

/-! ## What the steps are -/

/-- The steps of a worker, one by one. -/
inductive WorkerRule {A : Type} (body : WorkItem → EStateM Exn A Unit) (w : Worker A)
    (q : BoundedQueue WorkItem) :
    WorkerEvent → Worker A → BoundedQueue WorkItem → Prop where
  /-- shut down and empty: the loop ends -/
  | exit {q' : BoundedQueue WorkItem} : w.pc = .popping → q.pop = some (none, q') →
      WorkerRule body w q (.pop none) { w with pc := .exited } q'
  | take {item : WorkItem} {q' : BoundedQueue WorkItem} : w.pc = .popping →
      q.pop = some (some item, q') →
      WorkerRule body w q (.pop (some item)) { w with pc := .holding item } q'
  | process {item : WorkItem} {result : A} : w.pc = .holding item →
      (body item).run w.result = .ok () result →
      WorkerRule body w q (.process item none) { w with pc := .popping, result := result } q
  | throw {item : WorkItem} {e : Exn} {result : A} : w.pc = .holding item →
      (body item).run w.result = .error e result →
      WorkerRule body w q (.process item (some e)) ⟨.caught, result, some e⟩ q
  | shutdown : w.pc = .caught →
      WorkerRule body w q .shutdown { w with pc := .exited } q.shutdown

theorem workerStep_rule {A : Type} {body : WorkItem → EStateM Exn A Unit} {w w' : Worker A}
    {q q' : BoundedQueue WorkItem} {e : WorkerEvent} (h : workerStep body w q = some (e, w', q')) :
    WorkerRule body w q e w' q' := by
  unfold workerStep at h
  split at h
  case h_1 hpc =>
    split at h
    case h_1 => cases h
    case h_2 hpop => cases h; exact .exit hpc hpop
    case h_3 hpop => cases h; exact .take hpc hpop
  case h_2 item hpc =>
    split at h
    case h_1 hrun => cases h; exact .process hpc hrun
    case h_2 hrun => cases h; exact .throw hpc hrun
  case h_3 hpc => cases h; exact .shutdown hpc
  case h_4 => cases h

/-- The steps of a call, one by one. -/
inductive Rule (s : State J) : Event J.numWorkers → State J → Prop where
  | spawn : s.main = .spawning → s.started < J.numWorkers →
      Rule s (.main .spawn) { s with started := s.started + 1 }
  | callChunk : s.main = .spawning → J.numWorkers ≤ s.started →
      Rule s (.main .callChunk) { s with main := .chunking J.effects }
  | push {effect : Effect} {rest : List Effect} {item : WorkItem} {accepted : Bool}
      {q : BoundedQueue WorkItem} : s.main = .chunking (effect :: rest) →
      effect.item? = some item → s.queue.push item = some (accepted, q) →
      Rule s (.main (.push item accepted)) { s with main := .chunking rest, queue := q }
  | effect {effect : Effect} {rest : List Effect} : s.main = .chunking (effect :: rest) →
      effect.item? = none →
      Rule s (.main (.effect effect)) { s with main := .chunking rest }
  | chunkReturns : s.main = .chunking [] → J.chunkEnd = .ok () →
      Rule s (.main .chunkReturns) { s with main := .stopping }
  | chunkThrows {e : Exn} : s.main = .chunking [] → J.chunkEnd = .error e →
      Rule s (.main .chunkThrows) { s with main := .left (.error e) }
  | shutdown : s.main = .stopping →
      Rule s (.main .shutdown) { s with main := .joining, queue := s.queue.shutdown }
  | join (h : s.joined < J.numWorkers) : s.main = .joining →
      (s.workers ⟨s.joined, h⟩).pc = .exited →
      Rule s (.main .join) { s with joined := s.joined + 1 }
  | finish : s.main = .joining → J.numWorkers ≤ s.joined →
      Rule s (.main .finish) { s with main := .left (J.collect s.workers) }
  | worker {i : Fin J.numWorkers} {e : WorkerEvent} {w : Worker J.policy.Accumulator}
      {q : BoundedQueue WorkItem} : i < s.started → s.main.isLeft = false →
      WorkerRule J.body (s.workers i) s.queue e w q →
      Rule s (.worker i e) (s.setWorker i w q)

theorem mainStep_rule {s s' : State J} {e : MainEvent} (h : mainStep s = some (e, s')) :
    Rule s (.main e) s' := by
  unfold mainStep at h
  split at h
  case h_1 hmain =>
    split at h
    case isTrue hlt => cases h; exact .spawn hmain hlt
    case isFalse hge => cases h; exact .callChunk hmain (Nat.le_of_not_lt hge)
  case h_2 effect rest hmain =>
    split at h
    case h_1 item hitem =>
      split at h
      case h_1 => cases h
      case h_2 hpush => cases h; exact .push hmain hitem hpush
    case h_2 hitem => cases h; exact .effect hmain hitem
  case h_3 hmain =>
    split at h
    case h_1 hend => cases h; exact .chunkReturns hmain hend
    case h_2 hend => cases h; exact .chunkThrows hmain hend
  case h_4 hmain => cases h; exact .shutdown hmain
  case h_5 hmain =>
    split at h
    case isTrue hlt =>
      split at h
      case isTrue hexit => cases h; exact .join hlt hmain hexit
      case isFalse => cases h
    case isFalse hge => cases h; exact .finish hmain (Nat.le_of_not_lt hge)
  case h_6 => cases h

/-- **The rules are all there is.** -/
theorem step_rule {s s' : State J} {l : Event J.numWorkers} (h : (system J).step s l s') :
    Rule s l s' := by
  obtain ⟨thread, hst⟩ := h
  cases thread with
  | none =>
    obtain ⟨⟨e, s₁⟩, hmain, heq⟩ := Option.map_eq_some_iff.mp hst
    cases heq
    exact mainStep_rule hmain
  | some i =>
    rw [threadStep] at hst
    split at hst
    case isTrue hcan =>
      obtain ⟨⟨e, w, q⟩, hworker, heq⟩ := Option.map_eq_some_iff.mp hst
      cases heq
      exact .worker hcan.1 hcan.2 (workerStep_rule hworker)
    case isFalse => cases hst

/-- The main thread can step as soon as `mainStep` says so. -/
theorem step_of_mainStep {s s' : State J} {e : MainEvent} (h : mainStep s = some (e, s')) :
    (system J).step s (.main e) s' :=
  ⟨none, by rw [threadStep, h]; rfl⟩

/-- A started worker can step as soon as `workerStep` says so. -/
theorem step_of_workerStep {s : State J} {i : Fin J.numWorkers} {e : WorkerEvent}
    {w : Worker J.policy.Accumulator} {q : BoundedQueue WorkItem} (hstarted : i < s.started)
    (hleft : s.main.isLeft = false) (h : workerStep J.body (s.workers i) s.queue = some (e, w, q)) :
    (system J).step s (.worker i e) (s.setWorker i w q) :=
  ⟨some i, by rw [threadStep, if_pos ⟨hstarted, hleft⟩, h]; rfl⟩

/-! ## The queue inside the pipeline -/

/-- The thread that makes a call of the queue: a worker, or the main thread. -/
abbrev QueueCall (n : ℕ) := BoundedQueue.Call (Option (Fin n)) WorkItem

/-- The call of the queue that a step makes, if it makes one. -/
def Event.call? {n : ℕ} : Event n → Option (QueueCall n)
  | .main (.push item accepted) => some (.push none item accepted)
  | .main .shutdown => some (.shutdown none)
  | .worker i (.pop item) => some (.pop (some i) item)
  | .worker i .shutdown => some (.shutdown (some i))
  | _ => none

/-- The history of the queue in a trace. -/
def calls {n : ℕ} (tr : List (Event n)) : List (QueueCall n) := tr.filterMap Event.call?

/-- A step makes one call of the queue or leaves it alone. -/
theorem Rule.queue {s s' : State J} {l : Event J.numWorkers} (h : Rule s l s') :
    match l.call? with
    | some call => s.queue.step call s'.queue
    | none => s'.queue = s.queue := by
  cases h with
  | push hmain hitem hpush => exact hpush
  | shutdown hmain => rfl
  | worker hstarted hleft hrule =>
    cases hrule with
    | exit hpc hpop => exact hpop
    | take hpc hpop => exact hpop
    | process hpc hrun => rfl
    | throw hpc hrun => rfl
    | shutdown hpc => rfl
  | _ => rfl

variable (J) in
/-- What the pipeline does to the queue, seen from the queue. -/
def queueRefinement : TransitionSystem.Refinement (system J)
    (BoundedQueue.system (Option (Fin J.numWorkers)) WorkItem (J.numWorkers * 4)) where
  abs := State.queue
  label := Event.call?
  inv _ := True
  inv_start := trivial
  abs_start := rfl
  inv_step _ _ := trivial
  abs_step {s l s'} _ hst := by
    have hqueue := (step_rule hst).queue
    cases hcall : l.call? with
    | none => rwa [hcall] at hqueue
    | some call => rwa [hcall] at hqueue

/-- **The pipeline refines the queue**: what it does to the queue is a history of calls. -/
theorem Run.queue_run {tr : List (Event J.numWorkers)} {s : State J} (h : (system J).Run tr s) :
    (BoundedQueue.system (Option (Fin J.numWorkers)) WorkItem (J.numWorkers * 4)).Run (calls tr)
      s.queue :=
  (queueRefinement J).run h

end Pipeline

end Dataprint
