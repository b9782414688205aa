import Dataprint.Pipeline.Invariant
import Mathlib.Algebra.BigOperators.Fin

/-!
# Progress of the Pipeline

Whether a call of `run_pipeline` comes to an end, and what it leaves behind.

- `step_decreases` — every step lowers `measure`, so no run is infinite;
- `not_stuck` — with at least one worker some thread can always move until the call has
  been left;
- `neverStuck_iff` and `leavesNoWorker_iff` say for which inputs a call can never get
  stuck, and when it is left with all of its threads joined.
-/

namespace Dataprint.Pipeline

open Foundations

variable {J : Pipeline}

/-! ## Every run ends -/

/-- The steps that a worker can still make by itself, and one more for the item in hand. -/
def WorkerPc.weight : WorkerPc → ℕ
  | .popping => 2
  | .holding _ => 4
  | .caught => 1
  | .exited => 0

/-- A push is worth more than the queued item it may become. -/
def MainPc.weight {A : Type} (effects : List Effect) : MainPc A → ℕ
  | .spawning => 4 * effects.length + 4
  | .chunking rest => 4 * rest.length + 3
  | .stopping => 2
  | .joining => 1
  | .left _ => 0

/-- A bound on the steps that are still to come. -/
def measure (s : State J) : ℕ :=
  s.main.weight J.effects + 3 * s.queue.queue.length + ∑ i, (s.workers i).pc.weight +
    (J.numWorkers - s.started) + (J.numWorkers - s.joined)

theorem WorkerRule.decreases {A : Type} {body : WorkItem → EStateM Exn A Unit} {w w' : Worker A}
    {q q' : BoundedQueue WorkItem} {e : WorkerEvent} (h : WorkerRule body w q e w' q') :
    w'.pc.weight + 3 * q'.queue.length < w.pc.weight + 3 * q.queue.length := by
  cases h with
  | exit hpc hpop =>
    obtain ⟨-, -, rfl⟩ := BoundedQueue.pop_none hpop
    simp [hpc, WorkerPc.weight]
  | take hpc hpop =>
    -- the item in hand weighs less than it did in the queue
    obtain ⟨hcons, -⟩ := BoundedQueue.pop_some hpop
    simp only [hpc, WorkerPc.weight, hcons, List.length_cons]
    omega
  | process hpc hrun => simp [hpc, WorkerPc.weight]
  | throw hpc hrun => simp [hpc, WorkerPc.weight]
  | shutdown hpc => simp [hpc, WorkerPc.weight]

/-- The weights of all workers after a step of one of them. -/
theorem sum_weight_setWorker (s : State J) (i : Fin J.numWorkers)
    (w : Worker J.policy.Accumulator) (q : BoundedQueue WorkItem) :
    ∑ j, ((s.setWorker i w q).workers j).pc.weight + (s.workers i).pc.weight =
      ∑ j, (s.workers j).pc.weight + w.pc.weight := by
  rw [← Finset.add_sum_erase _ _ (Finset.mem_univ i),
    ← Finset.add_sum_erase _ (fun j => (s.workers j).pc.weight) (Finset.mem_univ i), setWorker_same]
  have hothers : ∑ j ∈ Finset.univ.erase i, ((s.setWorker i w q).workers j).pc.weight =
      ∑ j ∈ Finset.univ.erase i, (s.workers j).pc.weight :=
    Finset.sum_congr rfl fun j hj => by rw [setWorker_other s (Finset.ne_of_mem_erase hj)]
  omega

theorem Rule.decreases {s s' : State J} {l : Event J.numWorkers} (h : Rule s l s') :
    measure s' < measure s := by
  unfold measure
  cases h with
  | spawn hmain hlt => simp only; omega
  | callChunk hmain hge => simp only [hmain, MainPc.weight]; omega
  | push hmain hitem hpush =>
    simp only [hmain, MainPc.weight, List.length_cons]
    rcases BoundedQueue.push_cases hpush with ⟨-, -, rfl⟩ | ⟨-, -, hqueue, -⟩
    · omega
    · rw [hqueue, List.length_append, List.length_singleton]
      omega
  | effect hmain hitem => simp only [hmain, MainPc.weight, List.length_cons]; omega
  | chunkReturns hmain hend => simp only [hmain, MainPc.weight]; omega
  | chunkThrows hmain hend => simp only [hmain, MainPc.weight]; omega
  | shutdown hmain => simp only [hmain, MainPc.weight, BoundedQueue.shutdown_queue]; omega
  | join hlt hmain hexit => simp only; omega
  | finish hmain hge => simp only [hmain, MainPc.weight]; omega
  | @worker i e w q hstarted hleft hworker =>
    have hsum := sum_weight_setWorker s i w q
    have hdec := hworker.decreases
    simp only [setWorker_main, setWorker_queue, setWorker_started, setWorker_joined]
    omega

theorem step_decreases {s s' : State J} {l : Event J.numWorkers} (h : (system J).step s l s') :
    measure s' < measure s :=
  (step_rule h).decreases

/-! ## Some thread can move -/

/-- A started thread that has not exited can move, unless it waits for an item. -/
theorem worker_can_step {s : State J} {i : Fin J.numWorkers} (hstarted : i < s.started)
    (hleft : s.main.isLeft = false) (hpc : (s.workers i).pc ≠ .exited)
    (hready : s.queue.done = true ∨ s.queue.queue ≠ []) : ¬ (system J).Stuck s := by
  have hsome : workerStep J.body (s.workers i) s.queue ≠ none := by
    unfold workerStep
    cases hw : (s.workers i).pc with
    | popping =>
      have hpop : s.queue.pop ≠ none := by
        rw [ne_eq, BoundedQueue.pop_eq_none]
        rintro ⟨hopen, hnil⟩
        rcases hready with hdone | hne
        · simp [hdone] at hopen
        · exact hne hnil
      obtain ⟨⟨result, q⟩, hq⟩ := Option.ne_none_iff_exists'.mp hpop
      cases result <;> simp [hq]
    | holding item => cases hrun : (J.body item).run (s.workers i).result <;> simp [hrun]
    | caught => simp
    | exited => exact absurd hw hpc
  obtain ⟨⟨e, w, q⟩, hstep⟩ := Option.ne_none_iff_exists'.mp hsome
  exact fun hstuck => hstuck _ _ (step_of_workerStep hstarted hleft hstep)

theorem main_can_step {s : State J} (h : mainStep s ≠ none) : ¬ (system J).Stuck s := by
  obtain ⟨⟨e, s'⟩, hstep⟩ := Option.ne_none_iff_exists'.mp h
  exact fun hstuck => hstuck _ _ (step_of_mainStep hstep)

/-- **No deadlock**: until the call has been left some thread can move, if there is a worker or
nothing to push. -/
theorem not_stuck {s : State J} (h : (system J).Reachable s) (hleft : s.main.isLeft = false)
    (hpool : 0 < J.numWorkers ∨ pushes J.effects = []) : ¬ (system J).Stuck s := by
  obtain ⟨tr, hrun⟩ := h
  have hinv := Run.inv hrun
  have htrace := Run.traceInv hrun
  have hmax := (BoundedQueue.Run.history (Run.queue_run hrun)).maxSize_eq
  cases hmain : s.main with
  | spawning =>
    apply main_can_step
    rw [mainStep, hmain]
    dsimp only
    split <;> simp
  | chunking rest =>
    cases rest with
    | nil =>
      apply main_can_step
      rw [mainStep, hmain]
      dsimp only
      split <;> simp
    | cons effect rest =>
      cases hitem : effect.item? with
      | none =>
        apply main_can_step
        simp [mainStep, hmain, hitem]
      | some item =>
        -- there is something to push, so there is a worker
        have hworkers : 0 < J.numWorkers := by
          rcases hpool with hpos | hnone
          · exact hpos
          · have heq := htrace.pushed_eq
            rw [hnone, List.append_eq_nil_iff] at heq
            have hnil := heq.2
            simp [hmain, MainPc.rest, pushes, hitem] at hnil
        cases hpush : s.queue.push item with
        | some r =>
          apply main_can_step
          simp [mainStep, hmain, hitem, hpush]
        | none =>
          -- the queue is full: the first worker can move
          obtain ⟨hopen, hfull⟩ := BoundedQueue.push_eq_none.mp hpush
          have hstarted := hinv.started_eq (by simp [hmain])
          refine worker_can_step (i := ⟨0, hworkers⟩) (by omega) hleft ?_ (.inr ?_)
          · intro hexit
            have hdone := hinv.exited_done _ hexit
            simp [hopen] at hdone
          · intro hnil
            rw [hmax, hnil, List.length_nil] at hfull
            omega
  | stopping =>
    apply main_can_step
    simp [mainStep, hmain]
  | joining =>
    by_cases hall : s.joined < J.numWorkers
    · by_cases hexit : (s.workers ⟨s.joined, hall⟩).pc = .exited
      · apply main_can_step
        simp [mainStep, hmain, hall, hexit]
      · -- the thread that is joined next still runs, on a queue that is shut down
        have hstarted := hinv.started_eq (by simp [hmain])
        exact worker_can_step (by simpa [hstarted] using hall) hleft hexit
          (.inl (hinv.joining_done hmain))
    · apply main_can_step
      simp [mainStep, hmain, hall]
  | left r => simp [hmain, MainPc.isLeft] at hleft

/-! ## Reaching the call of `chunk` -/

/-- All threads started, `chunk` at the effects `rest`, nothing popped yet. -/
def State.atChunk (J : Pipeline) (rest : List Effect) : State J :=
  { J.start with main := .chunking rest, started := J.numWorkers }

theorem reachable_atChunk (J : Pipeline) : (system J).Reachable (State.atChunk J J.effects) := by
  have hspawn : ∀ n ≤ J.numWorkers, (system J).Reachable { J.start with started := n } := by
    intro n
    induction n with
    | zero => exact fun _ => .start
    | succ n ih =>
      intro hn
      refine (ih (Nat.le_of_succ_le hn)).step (l := .main .spawn) (step_of_mainStep ?_)
      simp [mainStep, start, Nat.lt_of_succ_le hn]
  refine (hspawn _ le_rfl).step (l := .main .callChunk) (step_of_mainStep ?_)
  simp [mainStep, start, State.atChunk]

/-- Effects that are no pushes lead on, whatever the workers do. -/
theorem reachable_atChunk_append {before rest : List Effect} (hpushes : pushes before = [])
    (h : (system J).Reachable (State.atChunk J (before ++ rest))) :
    (system J).Reachable (State.atChunk J rest) := by
  induction before with
  | nil => exact h
  | cons effect before ih =>
    have hitem : effect.item? = none := by
      by_contra hne
      obtain ⟨item, hitem⟩ := Option.ne_none_iff_exists'.mp hne
      simp [pushes, hitem] at hpushes
    refine ih (by simpa [pushes, hitem] using hpushes) (h.step (l := .main (.effect effect)) ?_)
    exact step_of_mainStep (by simp [mainStep, State.atChunk, hitem])

/-- The effects up to the first push. -/
theorem exists_first_push {effects : List Effect} (h : pushes effects ≠ []) :
    ∃ before effect rest item, effects = before ++ effect :: rest ∧ pushes before = [] ∧
      effect.item? = some item := by
  induction effects with
  | nil => exact absurd rfl h
  | cons effect effects ih =>
    cases hitem : effect.item? with
    | some item => exact ⟨[], effect, effects, item, rfl, rfl, hitem⟩
    | none =>
      obtain ⟨before, effect', rest, item, rfl, hbefore, hitem'⟩ :=
        ih (by simpa [pushes, hitem] using h)
      exact ⟨effect :: before, effect', rest, item, rfl, by simpa [pushes, hitem] using hbefore,
        hitem'⟩

/-! ## When a call cannot get stuck -/

variable (J) in
/-- No reachable state has the call unfinished and every thread blocked. -/
def NeverStuck : Prop :=
  ∀ s, (system J).Reachable s → s.main.isLeft = false → ¬ (system J).Stuck s

/-- Without workers the first push waits for ever. -/
theorem not_neverStuck (hworkers : J.numWorkers = 0) (hpushes : pushes J.effects ≠ []) :
    ¬ NeverStuck J := by
  intro h
  obtain ⟨before, effect, rest, item, heffects, hbefore, hitem⟩ := exists_first_push hpushes
  have hreach := reachable_atChunk J
  rw [heffects] at hreach
  refine h _ (reachable_atChunk_append hbefore hreach) rfl ?_
  rintro l s' ⟨thread, hst⟩
  cases thread with
  | none =>
    -- a bound of zero leaves no room, and nobody shuts the queue down
    have hpush : (State.atChunk J (effect :: rest)).queue.push item = none :=
      BoundedQueue.push_eq_none.mpr ⟨rfl, by simp [State.atChunk, start, BoundedQueue.new, hworkers]⟩
    have hmain : mainStep (State.atChunk J (effect :: rest)) = none := by
      simp only [mainStep, State.atChunk, hitem] at hpush ⊢
      rw [hpush]
    simp [threadStep, hmain] at hst
  | some i =>
    have := i.isLt
    omega

/-- **The pool never gets stuck** exactly if there is a worker or nothing to push: with a single
hardware thread there is no worker, the queue has no room, and the first push never returns. -/
theorem neverStuck_iff (P : Policy) (hardwareConcurrency : ℕ+) (file : File) (chunkSize : ℕ)
    (body : WorkItem → EStateM Exn P.Accumulator Unit) :
    NeverStuck (runPipeline P (Dataprint.numWorkers hardwareConcurrency) file chunkSize body) ↔
      2 ≤ (hardwareConcurrency : ℕ) ∨ ¬ (file.Readable ∧ file.content ≠ []) := by
  have hpos := hardwareConcurrency.pos
  have hpushes := (chunkCall_spec file chunkSize).1
  constructor
  · intro h
    by_contra hcond
    obtain ⟨hone, hfile⟩ := not_or.mp hcond
    obtain ⟨hread, hne⟩ := not_not.mp hfile
    refine not_neverStuck ?_ ?_ h
    · simp only [runPipeline, Dataprint.numWorkers]
      omega
    · simp only [runPipeline]
      rw [hpushes, if_pos hread, chunks_of_ne_nil chunkSize hne]
      exact List.cons_ne_nil _ _
  · intro hcond s hs hleft
    refine not_stuck hs hleft ?_
    rcases hcond with htwo | hfile
    · left
      simp only [runPipeline, Dataprint.numWorkers]
      omega
    · right
      simp only [runPipeline]
      rw [hpushes]
      by_cases hread : file.Readable
      · have hnil : file.content = [] := by
          by_contra hne
          exact hfile ⟨hread, hne⟩
        rw [if_pos hread, hnil, chunks_nil]
      · rw [if_neg hread]

/-- One hardware thread and a readable file of two bytes: the call gets stuck. -/
theorem neverStuck_fails_on_one_thread :
    ¬ NeverStuck (runPipeline fingerprintPolicy (Dataprint.numWorkers 1)
      ⟨"a.json", [0x5b, 0x5d], some 3, true, true, none⟩ 4194304 fun _ => pure ()) := by
  refine not_neverStuck rfl ?_
  simp only [runPipeline]
  rw [pushes_chunkCall (by decide), chunks_of_ne_nil _ (by decide)]
  exact List.cons_ne_nil _ _

/-! ## What a call leaves behind -/

variable (J) in
/-- Whenever the call has been left, the queue is shut down and every thread that was started has
exited and been joined. -/
def LeavesNoWorker : Prop :=
  ∀ s, (system J).Reachable s → s.main.isLeft = true →
    s.queue.done = true ∧ s.joined = s.started ∧
      ∀ i : Fin J.numWorkers, i < s.started → (s.workers i).pc = .exited

/-- If `chunk` throws before it has pushed anything, the threads are left where they are. -/
theorem not_leavesNoWorker {e : Exn} (hend : J.chunkEnd = .error e)
    (hpushes : pushes J.effects = []) : ¬ LeavesNoWorker J := by
  intro h
  have hreach : (system J).Reachable (State.atChunk J []) := by
    refine reachable_atChunk_append hpushes ?_
    rw [List.append_nil]
    exact reachable_atChunk J
  have hthrow : mainStep (State.atChunk J []) =
      some (.chunkThrows, { State.atChunk J [] with main := .left (.error e) }) := by
    simp [mainStep, State.atChunk, hend]
  have hdone := (h _ (hreach.step (step_of_mainStep hthrow)) rfl).1
  simp [State.atChunk, start, BoundedQueue.new] at hdone

/-- **No thread is left behind** exactly on readable files: when `chunk` throws, nothing shuts the
queue down or joins the threads. -/
theorem leavesNoWorker_iff (P : Policy) (workers : ℕ) (file : File) (chunkSize : ℕ)
    (body : WorkItem → EStateM Exn P.Accumulator Unit) :
    LeavesNoWorker (runPipeline P workers file chunkSize body) ↔ file.Readable := by
  obtain ⟨hpushes, hend⟩ := chunkCall_spec file chunkSize
  constructor
  · intro h
    by_contra hread
    cases hcall : (chunkCall file chunkSize).2 with
    | ok _ => exact hread (hend.mp hcall)
    | error e =>
      refine not_leavesNoWorker (J := runPipeline P workers file chunkSize body) hcall ?_ h
      exact hpushes.trans (if_neg hread)
  · intro hread s hs hleft
    have hinv := Reachable.inv hs
    cases hmain : s.main with
    | left r =>
      have hstarted := hinv.started_eq (by simp [hmain])
      rcases hinv.left_cases r hmain with ⟨e, herr, -⟩ | ⟨-, hdone, hjoined, hexited, -⟩
      · have hok : (runPipeline P workers file chunkSize body).chunkEnd = .ok () := hend.mpr hread
        simp [hok] at herr
      · exact ⟨hdone, hjoined.trans hstarted.symm, fun i _ => hexited i⟩
    | _ => simp [hmain, MainPc.isLeft] at hleft

/-- A file that cannot be opened: the call is left with its only thread still running. -/
theorem leavesNoWorker_fails_on_unopened :
    ¬ LeavesNoWorker (runPipeline fingerprintPolicy 1
      ⟨"a.json", [0x5b, 0x5d], none, true, true, none⟩ 4194304 fun _ => pure ()) :=
  not_leavesNoWorker (e := .runtimeError "Failed to open filea.json") rfl rfl

end Dataprint.Pipeline
