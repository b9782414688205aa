import Dataprint.Foundations.Traversal
import Dataprint.Hashing
import Dataprint.Lines
import Dataprint.Pipeline.Progress

/-!
# How a Call of the Pipeline Ends

`workerBody` is the body of the loop in `Processor::worker`: it parses an item and hands
each of its documents to the hashing function.  It builds an exception when
`iterate_many` fails, and does not throw it.

- `Run.left_ok` — what a normal return says: every chunk was pushed and popped, and the
  result is the reduction of the outcomes of all workers;
- `Run.left_error` — what an exception says: `chunk` or some item has thrown;
- `nothingSwallowed_of_parsed` — no failure is lost in a run whose chunks `iterate_many`
  accepts, and `nothingSwallowed_fails_on_refused` shows one that is lost otherwise.
-/

namespace Dataprint

open Foundations

/-! ## The loop body of a worker -/

/-- The exception for a buffer that `iterate_many` refuses. -/
def jsonParseError (error : ErrorCode) : Exn :=
  .runtimeError ("JSON parse error in file: " ++ errorMessage error)

/-- The exception for a document that is no value. -/
def malformedDocument (error : ErrorCode) : Exn :=
  .runtimeError ("malformed JSON document: " ++ errorMessage error)

/-- Takes a document as a value and hashes it. -/
def hashDocument {A : Type} (fn : Element → U64 → EStateM Exn A Unit) (doc : Document) :
    EStateM Exn A Unit :=
  match doc with
  | .ok val => fn val 0
  | .error e => throw (malformedDocument e)

/-- What `Processor::worker` does with an item. -/
def workerBody (simd : Simdjson) {A : Type} (fn : Element → U64 → EStateM Exn A Unit)
    (item : WorkItem) : EStateM Exn A Unit := do
  let (error, stream) := getInto (simd.iterateMany item.chunk) (simd.unsetStream item.chunk)
  match error with
  | some e =>
    -- the exception is built and dropped
    let _ := jsonParseError e
    pure ()
  | none => pure ()
  forM stream (hashDocument fn)

/-- What the loop over the stream of an item sees: its documents, or what a stream yields that
`iterate_many` left as it was. -/
def streamed (simd : Simdjson) (item : WorkItem) : List Document :=
  (getInto (simd.iterateMany item.chunk) (simd.unsetStream item.chunk)).2

theorem streamed_of_ok {simd : Simdjson} {item : WorkItem} {docs : List Document}
    (h : simd.iterateMany item.chunk = .ok docs) : streamed simd item = docs := by
  simp [streamed, h, getInto]

/-- **The loop body hashes what the stream yields**, whether or not the buffer was accepted. -/
theorem workerBody_eq (simd : Simdjson) {A : Type} (fn : Element → U64 → EStateM Exn A Unit)
    (item : WorkItem) : workerBody simd fn item = forM (streamed simd item) (hashDocument fn) := by
  cases h : simd.iterateMany item.chunk <;> simp [workerBody, streamed, h, getInto]

/-- On a buffer that is accepted, all documents are hashed in order. -/
theorem workerBody_of_ok {simd : Simdjson} {A : Type} (fn : Element → U64 → EStateM Exn A Unit)
    {item : WorkItem} {docs : List Document} (h : simd.iterateMany item.chunk = .ok docs) :
    workerBody simd fn item = forM docs (hashDocument fn) := by
  rw [workerBody_eq, streamed_of_ok h]

/-- The values of a stream. -/
def values (docs : List Document) : List Element := docs.filterMap Except.toOption

/-- If no document throws, all of them were values. -/
theorem eq_map_values {A : Type} {fn : Element → U64 → EStateM Exn A Unit} {docs : List Document}
    {s s' : A} (h : (forM docs (hashDocument fn)).run s = .ok () s') :
    docs = (values docs).map .ok := by
  have hok := run_forM_ok h
  clear h
  induction docs with
  | nil => rfl
  | cons doc docs ih =>
    have htail := ih fun x hx => hok x (List.mem_cons_of_mem doc hx)
    cases doc with
    | ok val =>
      simp only [values, List.filterMap_cons, Except.toOption, List.map_cons] at htail ⊢
      rw [← htail]
    | error e =>
      -- such a document throws
      obtain ⟨t, t', hrun⟩ := hok _ List.mem_cons_self
      cases hrun

/-- The values that the parser reports for an item. -/
def itemDocuments (simd : Simdjson) (item : WorkItem) : List Element :=
  match simd.iterateMany item.chunk with
  | .ok docs => values docs
  | .error _ => []

theorem itemDocuments_of_ok {simd : Simdjson} {item : WorkItem} {docs : List Document}
    (h : simd.iterateMany item.chunk = .ok docs) : itemDocuments simd item = values docs := by
  simp [itemDocuments, h]

theorem forM_map_ok {A : Type} (fn : Element → U64 → EStateM Exn A Unit) (vals : List Element) :
    forM (vals.map (Except.ok : Element → Document)) (hashDocument fn) =
      forM vals fun val => fn val 0 := by
  simp [List.forM_map, hashDocument]

namespace Pipeline

variable {J : Pipeline}

/-! ## The two ways out -/

/-- No slot holds an exception if the search for one finds none. -/
theorem exception_eq_none {workers : Fin J.numWorkers → Worker J.policy.Accumulator}
    (h : (List.ofFn fun i => (workers i).exception).findSome? id = none) :
    ∀ i, (workers i).exception = none := by
  intro i
  have hmem : (workers i).exception ∈ List.ofFn fun i => (workers i).exception :=
    List.mem_ofFn.mpr ⟨i, rfl⟩
  exact List.findSome?_eq_none_iff.mp h _ hmem

/-- What follows the joins succeeds only if no worker has failed. -/
theorem collect_eq_ok {workers : Fin J.numWorkers → Worker J.policy.Accumulator}
    {glob : J.policy.Accumulator} (h : J.collect workers = .ok glob) :
    (∀ i, (workers i).exception = none) ∧
      (forM (List.ofFn fun i => (workers i).result) J.policy.reduce).run J.policy.init =
        .ok () glob := by
  unfold collect at h
  split at h
  case h_1 => cases h
  case h_2 hnone =>
    refine ⟨exception_eq_none hnone, ?_⟩
    split at h
    case h_1 hrun => cases h; exact hrun
    case h_2 => cases h

/-- What follows the joins throws the exception of a worker, or no worker has one and the reduction
throws. -/
theorem collect_eq_error {workers : Fin J.numWorkers → Worker J.policy.Accumulator} {e : Exn}
    (h : J.collect workers = .error e) :
    (∃ i, (workers i).exception = some e) ∨ (∀ i, (workers i).exception = none) ∧
      ∃ s, (forM (List.ofFn fun i => (workers i).result) J.policy.reduce).run J.policy.init =
        .error e s := by
  unfold collect at h
  split at h
  case h_1 e' hsome =>
    cases h
    obtain ⟨x, hx, heq⟩ := List.exists_of_findSome?_eq_some hsome
    obtain ⟨i, rfl⟩ := List.mem_ofFn.mp hx
    exact .inl ⟨i, heq⟩
  case h_2 hnone =>
    split at h
    case h_1 => cases h
    case h_2 e' s hrun => cases h; exact .inr ⟨exception_eq_none hnone, s, hrun⟩

/-- **A normal return**: every chunk was accepted, and popped by one worker; no worker threw over
the items it took; and the result is the reduction of their outcomes. -/
theorem Run.left_ok {tr : List (Event J.numWorkers)} {s : State J} (h : (system J).Run tr s)
    {glob : J.policy.Accumulator} (hleft : s.main = .left (.ok glob)) :
    J.chunkEnd = .ok () ∧
    pushed tr = (pushes J.effects).map (·, true) ∧
    (pops tr).map Prod.snd = pushes J.effects ∧
    (∀ i item e, .worker i (.process item (some e)) ∉ tr) ∧
    (∀ i, (forM (taken i tr) J.body).run J.policy.init = .ok () (s.workers i).result) ∧
    (forM (List.ofFn fun i => (s.workers i).result) J.policy.reduce).run J.policy.init =
      .ok () glob := by
  have hinv := Run.inv h
  have htrace := Run.traceInv h
  have hist := BoundedQueue.Run.history (Run.queue_run h)
  rcases hinv.left_cases _ hleft with ⟨e, -, heq⟩ | ⟨hend, hdone, -, hexited, hcollect⟩
  · cases heq
  obtain ⟨hnone, hreduce⟩ := collect_eq_ok hcollect.symm
  have hsent : (pushed tr).map Prod.fst = pushes J.effects := by
    have hrest : s.main.rest J.effects = [] := by rw [hleft]; rfl
    have heq := htrace.pushed_eq
    rwa [hrest, pushes_nil, List.append_nil] at heq
  -- nobody failed, so no push was refused
  have haccepted : ∀ p ∈ pushed tr, p.2 = true := by
    rintro ⟨item, accepted⟩ hp
    cases accepted with
    | true => rfl
    | false =>
      obtain ⟨i, hi⟩ := htrace.refused item hp
      exact absurd (hnone i) hi
  have hpushed : pushed tr = (pushes J.effects).map (·, true) :=
    calc pushed tr = (pushed tr).map id := (List.map_id _).symm
      _ = (pushed tr).map fun p => (p.1, true) :=
        List.map_congr_left fun p hp => Prod.ext rfl (haccepted p hp)
      _ = (pushes J.effects).map (·, true) := by rw [← hsent, List.map_map]; rfl
  -- the queue is drained, or there is no worker and it never had room
  have hqueue : s.queue.queue = [] := by
    by_cases hworkers : 0 < J.numWorkers
    · exact hinv.drained ⟨0, hworkers⟩ (hexited _) (hnone _)
    · have hbound := s.queue.bounded
      rw [hist.maxSize_eq] at hbound
      exact List.length_eq_zero_iff.mp (by omega)
  refine ⟨hend, hpushed, ?_, ?_, ?_, hreduce⟩
  · have hfifo := hist.fifo
    rw [hqueue, List.append_nil, popped_calls, accepted_calls, hpushed] at hfifo
    rw [hfifo, List.filterMap_map]
    simp
  · intro i item e hmem
    have hexc := htrace.thrown i item e hmem
    simp [hnone i] at hexc
  · intro i
    simpa [Worker.Consistent, hexited i, hnone i] using htrace.worker i

/-- **An exception** comes out of `chunk`, out of the loop body of some worker over the items it
took, or, if no worker has failed, out of the reduction of their outcomes. -/
theorem Run.left_error {tr : List (Event J.numWorkers)} {s : State J} (h : (system J).Run tr s)
    {e : Exn} (hleft : s.main = .left (.error e)) :
    J.chunkEnd = .error e ∨
    (∃ i, (forM (taken i tr) J.body).run J.policy.init = .error e (s.workers i).result) ∨
    (∀ i, (forM (taken i tr) J.body).run J.policy.init = .ok () (s.workers i).result) ∧
      ∃ acc, (forM (List.ofFn fun i => (s.workers i).result) J.policy.reduce).run J.policy.init =
        .error e acc := by
  have htrace := Run.traceInv h
  rcases (Run.inv h).left_cases _ hleft with ⟨e', hend, heq⟩ | ⟨-, -, -, hexited, hcollect⟩
  · cases heq
    exact .inl hend
  rcases collect_eq_error hcollect.symm with ⟨i, hi⟩ | ⟨hnone, hreduce⟩
  · refine .inr (.inl ⟨i, ?_⟩)
    simpa [Worker.Consistent, hexited i, hi] using htrace.worker i
  · refine .inr (.inr ⟨fun i => ?_, hreduce⟩)
    simpa [Worker.Consistent, hexited i, hnone i] using htrace.worker i

/-- A worker took an item exactly if the queue handed it out to that worker. -/
theorem mem_taken {n : ℕ} {i : Fin n} {tr : List (Event n)} {item : WorkItem} :
    item ∈ taken i tr ↔ (i, item) ∈ pops tr := by
  simp only [taken, List.mem_map, List.mem_filter, decide_eq_true_eq, Prod.exists]
  constructor
  · rintro ⟨j, item', ⟨hmem, rfl⟩, rfl⟩
    exact hmem
  · intro hmem
    exact ⟨i, item, ⟨hmem, rfl⟩, rfl⟩

/-- Workers take chunks of the file only. -/
theorem mem_pushes_of_mem_taken {tr : List (Event J.numWorkers)} {s : State J}
    (h : (system J).Run tr s) {i : Fin J.numWorkers} {item : WorkItem} (hitem : item ∈ taken i tr) :
    item ∈ pushes J.effects := by
  have hfifo := (BoundedQueue.Run.history (Run.queue_run h)).fifo
  rw [popped_calls, accepted_calls] at hfifo
  have hpopped : item ∈ (pops tr).map Prod.snd :=
    List.mem_map.mpr ⟨(i, item), mem_taken.mp hitem, rfl⟩
  -- what is popped was accepted, and what was accepted was pushed
  have haccepted := List.mem_append_left s.queue.queue hpopped
  rw [hfifo] at haccepted
  obtain ⟨⟨item', accepted⟩, hpushed, heq⟩ := List.mem_filterMap.mp haccepted
  have hsame : item' = item := by
    cases accepted with
    | true => simpa using heq
    | false => simp at heq
  rw [← (Run.traceInv h).pushed_eq]
  exact List.mem_append_left _ (List.mem_map.mpr ⟨_, hpushed, hsame⟩)

/-! ## Failures -/

section Failures

variable (simd : Simdjson) {P : Policy} (fn : Element → U64 → EStateM Exn P.Accumulator Unit)
variable (workers chunkSize : ℕ) (file : File)

/-- Something went wrong with an item that a worker popped: the parser reported an error for it
or for one of its documents, or the work on it threw. -/
def Failed {n : ℕ} (tr : List (Event n)) : Prop :=
  ∃ i item, (i, item) ∈ pops tr ∧
    ((∃ e, simd.iterateMany item.chunk = .error e) ∨
      (∃ docs e, simd.iterateMany item.chunk = .ok docs ∧ .error e ∈ docs) ∨
      ∃ e, .worker i (.process item (some e)) ∈ tr)

/-- The pipeline over a file with the loop body of the source. -/
abbrev filePipeline : Pipeline := runPipeline P workers file chunkSize (workerBody simd fn)

/-- The result stands for the whole file: each chunk was accepted by a push and popped by one
worker, each document of it was hashed by that worker, and all outcomes were reduced. -/
structure Complete (tr : List (Event workers)) (s : State (filePipeline simd fn workers chunkSize file))
    (glob : P.Accumulator) : Prop where
  accepted : pushed tr = (chunks chunkSize file.content).map (·, true)
  popped : (pops tr).map Prod.snd = chunks chunkSize file.content
  hashed : ∃ documents : WorkItem → List Element,
    (∀ item ∈ chunks chunkSize file.content,
      simd.iterateMany item.chunk = .ok ((documents item).map .ok)) ∧
    ∀ i, (forM ((taken i tr).flatMap documents) fun val => fn val 0).run P.init =
      .ok () (s.workers i).result
  reduced : (forM (List.ofFn fun i => (s.workers i).result) P.reduce).run P.init = .ok () glob

/-- If something went wrong the call throws, and a normal return is complete. -/
def NothingSwallowed (tr : List (Event workers))
    (s : State (filePipeline simd fn workers chunkSize file)) : Prop :=
  ∀ r, s.main = .left r →
    (Failed simd tr → ∃ e, r = .error e) ∧
    ∀ glob, r = .ok glob → Complete simd fn workers chunkSize file tr s glob

variable {simd fn workers chunkSize file}

/-- The work on an item of a normal return: no document of it was malformed. -/
theorem parsed_values {tr : List (Event workers)}
    {s : State (filePipeline simd fn workers chunkSize file)} {i : Fin workers}
    (hrun : (forM (taken i tr) (workerBody simd fn)).run P.init = .ok () (s.workers i).result)
    {item : WorkItem} (hitem : (i, item) ∈ pops tr) {docs : List Document}
    (hdocs : simd.iterateMany item.chunk = .ok docs) : docs = (values docs).map .ok := by
  obtain ⟨t, t', hbody⟩ := run_forM_ok hrun item (mem_taken.mpr hitem)
  rw [workerBody_of_ok fn hdocs] at hbody
  exact eq_map_values hbody

/-- **No failure is swallowed** in a run in which `iterate_many` accepts every popped chunk. -/
theorem nothingSwallowed_of_parsed (tr : List (Event workers))
    (s : State (filePipeline simd fn workers chunkSize file))
    (hrun : (system (filePipeline simd fn workers chunkSize file)).Run tr s)
    (hparsed : ∀ i item, (i, item) ∈ pops tr → ∃ docs, simd.iterateMany item.chunk = .ok docs) :
    NothingSwallowed simd fn workers chunkSize file tr s := by
  intro r hleft
  cases r with
  | error e => exact ⟨fun _ => ⟨e, rfl⟩, fun glob hglob => by cases hglob⟩
  | ok glob =>
    obtain ⟨hend, hpushed, hpops, hquiet, hworkers, hreduce⟩ := Run.left_ok hrun hleft
    have hchunks : pushes (filePipeline simd fn workers chunkSize file).effects =
        chunks chunkSize file.content :=
      pushes_chunkCall ((chunkCall_spec file chunkSize).2.mp hend) chunkSize
    rw [hchunks] at hpushed hpops
    constructor
    · -- whatever went wrong would have made its worker throw
      rintro ⟨i, item, hitem, ⟨e, he⟩ | ⟨docs, e, hdocs, he⟩ | ⟨e, he⟩⟩
      · obtain ⟨docs, hdocs⟩ := hparsed i item hitem
        simp [he] at hdocs
      · rw [parsed_values (hworkers i) hitem hdocs] at he
        simp at he
      · exact absurd he (hquiet i item e)
    · rintro glob' hglob
      cases hglob
      have hdocuments : ∀ i item, (i, item) ∈ pops tr →
          simd.iterateMany item.chunk = .ok ((itemDocuments simd item).map .ok) := by
        intro i item hitem
        obtain ⟨docs, hdocs⟩ := hparsed i item hitem
        rw [itemDocuments_of_ok hdocs, ← parsed_values (hworkers i) hitem hdocs]
        exact hdocs
      refine ⟨hpushed, hpops, ⟨itemDocuments simd, fun item hitem => ?_, fun i => ?_⟩, hreduce⟩
      · rw [← hpops] at hitem
        obtain ⟨⟨i, item'⟩, hmem, rfl⟩ := List.mem_map.mp hitem
        exact hdocuments i item' hmem
      · -- over accepted chunks the loop body is the loop over their documents
        have hbody : forM (taken i tr) (workerBody simd fn) =
            forM ((taken i tr).flatMap (itemDocuments simd)) fun val => fn val 0 := by
          rw [← forM_flatMap]
          refine forM_congr_mem fun item hitem => ?_
          rw [workerBody_of_ok fn (hdocuments i item (mem_taken.mp hitem)), forM_map_ok]
        rw [← hbody]
        exact hworkers i

end Failures

/-- One worker, one chunk, in the order in which one thread waits for the other. -/
private def oneChunkSchedule : List (Option (Fin 1)) :=
  -- start the thread and run `chunk`
  List.replicate 10 none ++
  -- take the chunk and work on it
  [some 0, some 0] ++
  -- shut down, let the thread exit, join it and leave
  [none, some 0, none, none]

/-- One line holding `[]`: the chunk is hashed, and the theorem applies. -/
theorem nothingSwallowed_of_parsed_one_line :
    ∃ tr s, s.main.result? = some (.ok (emptyArrayHash)) ∧
      NothingSwallowed (Simdjson.ofLines parseEmpty)
        (hashBasicValues (Env.plain (Simdjson.ofLines parseEmpty)) fingerprintPolicy) 1 4
        ⟨"a.json", [0x5b, 0x5d, 0x0a], some 3, true, true, none⟩ tr s := by
  let J := filePipeline (Simdjson.ofLines parseEmpty)
    (hashBasicValues (Env.plain (Simdjson.ofLines parseEmpty)) fingerprintPolicy) 1 4
    ⟨"a.json", [0x5b, 0x5d, 0x0a], some 3, true, true, none⟩
  have hrun : ((schedule oneChunkSchedule J.start).map fun r => (pops r.1, r.2.main.result?) :
      Option (List (Fin 1 × WorkItem) × Option (Except Exn U128))) =
      some ([(0, ⟨[0x5b, 0x5d, 0x0a]⟩)], some (.ok emptyArrayHash)) := by decide +kernel
  obtain ⟨⟨tr, s⟩, hsched, heq⟩ := Option.map_eq_some_iff.mp hrun
  have hresult : s.main.result? = some (.ok emptyArrayHash) := (Prod.ext_iff.mp heq).2
  refine ⟨tr, s, hresult, nothingSwallowed_of_parsed tr s (schedule_run hsched) ?_⟩
  intro i item _
  exact ⟨_, rfl⟩

/-- A parser that has no memory for any buffer, and leaves the stream without a document. -/
def refusing : Simdjson :=
  { Simdjson.ofLines parseEmpty with iterateMany := fun _ => .error .memalloc }

/-- **A failure that is swallowed**: `iterate_many` refuses the only chunk, and the call returns the
fingerprint of nothing. -/
theorem nothingSwallowed_fails_on_refused :
    ∃ tr s, (system (filePipeline refusing (hashBasicValues (Env.plain refusing) fingerprintPolicy)
        1 4 ⟨"a.json", [0x5b, 0x5d, 0x0a], some 3, true, true, none⟩)).Run tr s ∧
      s.main.result? = some (.ok (0 : U128)) ∧
      ¬ NothingSwallowed refusing (hashBasicValues (Env.plain refusing) fingerprintPolicy)
        1 4 ⟨"a.json", [0x5b, 0x5d, 0x0a], some 3, true, true, none⟩ tr s := by
  let J := filePipeline refusing (hashBasicValues (Env.plain refusing) fingerprintPolicy)
    1 4 ⟨"a.json", [0x5b, 0x5d, 0x0a], some 3, true, true, none⟩
  have hrun : ((schedule oneChunkSchedule J.start).map fun r => (pops r.1, r.2.main.result?) :
      Option (List (Fin 1 × WorkItem) × Option (Except Exn U128))) =
      some ([(0, ⟨[0x5b, 0x5d, 0x0a]⟩)], some (.ok 0)) := by decide +kernel
  obtain ⟨⟨tr, s⟩, hsched, heq⟩ := Option.map_eq_some_iff.mp hrun
  have hpops : pops tr = [((0 : Fin 1), ⟨[0x5b, 0x5d, 0x0a]⟩)] := (Prod.ext_iff.mp heq).1
  have hresult : s.main.result? = some (.ok (0 : U128)) := (Prod.ext_iff.mp heq).2
  refine ⟨tr, s, schedule_run hsched, hresult, fun hall => ?_⟩
  have hfailed : Failed refusing tr :=
    ⟨(0 : Fin 1), ⟨[0x5b, 0x5d, 0x0a]⟩, hpops ▸ List.mem_singleton_self _, .inl ⟨.memalloc, rfl⟩⟩
  obtain ⟨e, he⟩ := (hall _ (MainPc.result?_eq_some.mp hresult)).1 hfailed
  cases he

end Pipeline

end Dataprint
