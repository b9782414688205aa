import Dataprint.Pipeline.Outcome

/-!
# What the Pipeline Computes

Over a readable file of one document a line, with a mergeable policy, a call of
`run_pipeline` has only one outcome, however its threads are interleaved
(`Run.summary`): if hashing some document of the file throws, the call throws; otherwise
it returns an accumulator of exactly the hashes of the file.

The argument goes down to the documents and up again:

- `streamedFile_eq` — the chunks carry the documents of the file, in order;
- `flatten_taken` — what the workers took, put together, is what was popped;
- `Run.distributed` — a normal return is a distribution of the hashes over the workers;
- `exists_outcome` — with at least one worker, the call does come to its end.
-/

namespace Dataprint.Pipeline

open Foundations

/-! ## The documents of the chunks -/

/-- The documents of a file in chunks of this size, in order. -/
def streamedFile (simd : Simdjson) (chunkSize : ℕ) (file : File) : List Document :=
  (chunks chunkSize file.content).flatMap (streamed simd)

/-- **No document is lost, doubled or cut** by the chunks of a file of one document a line. -/
theorem streamedFile_eq {simd : Simdjson} {parse : Bytes → Option Element}
    (hreads : ReadsLines simd parse) {file : File} {docs : List Element}
    (hdocs : LineDocuments parse (lines file.content) docs) (chunkSize : ℕ) :
    streamedFile simd chunkSize file = docs.map .ok := by
  have hflat := chunks_flatten chunkSize file.content
  have hcut := chunks_cutAtNewlines chunkSize file.content
  rw [← hflat] at hdocs
  obtain ⟨parts, hparts, rfl⟩ := LineDocuments.pieces hcut hdocs
  rw [List.forall₂_map_left_iff] at hparts
  rw [streamedFile]
  generalize chunks chunkSize file.content = items at hparts
  clear hflat hcut hdocs
  induction hparts with
  | nil => rfl
  | cons hhead _ ih =>
    -- what the parser reads of a chunk are the documents of its lines
    rw [List.flatMap_cons, List.flatten_cons, List.map_append, ih,
      streamed_of_ok (hreads _ _ hhead)]

/-! ## What the workers took -/

/-- Sorting a list by worker and putting it together again. -/
theorem sum_filter_worker {n : ℕ} {α β : Type} (g : α → List β) (l : List (Fin n × α)) :
    (List.ofFn fun i => ((((l.filter fun p => p.1 = i).map Prod.snd).flatMap g : List β) :
      Multiset β)).sum = ((l.map Prod.snd).flatMap g : List β) := by
  rw [List.sum_ofFn]
  induction l with
  | nil => simp
  | cons p l ih =>
    -- the head goes to one worker, the others keep what they have
    have hhead : ∀ i : Fin n,
        (((((p :: l).filter fun p => p.1 = i).map Prod.snd).flatMap g : List β) : Multiset β) =
          (if p.1 = i then (g p.2 : Multiset β) else 0) +
            (((l.filter fun p => p.1 = i).map Prod.snd).flatMap g : List β) := by
      intro i
      by_cases hi : p.1 = i <;> simp [hi]
    rw [Finset.sum_congr rfl fun i _ => hhead i, Finset.sum_add_distrib, ih, Finset.sum_ite_eq]
    simp

/-- **Popped by exactly one worker**: what the workers took is what was popped. -/
theorem flatten_taken {n : ℕ} {β : Type} (g : WorkItem → List β) (tr : List (Event n)) :
    (List.ofFn fun i => (taken i tr).flatMap g).flatten.Perm
      (((pops tr).map Prod.snd).flatMap g) := by
  rw [← Multiset.coe_eq_coe, ← Mergeable.sum_map_coe, List.map_ofFn]
  exact sum_filter_worker g (pops tr)

/-! ## The outcome -/

/-- The pipeline that hashes a file for a policy. -/
abbrev hashPipeline (env : Env) (P : Policy) (workers chunkSize : ℕ) (file : File) : Pipeline :=
  filePipeline env.simd (hashBasicValues env P) workers chunkSize file

section Summary

variable {env : Env} {parse : Bytes → Option Element} {P : Policy}
variable {R : Multiset U128 → P.Accumulator → Prop} {file : File} {docs : List Element}
variable {workers chunkSize : ℕ}

/-- What a document of a stream emits; one that is no value throws. -/
def documentEmission (env : Env) (doc : Document) : Emission :=
  match doc with
  | .ok val => emissions env val 0
  | .error e => .fail (malformedDocument e)

/-- What a stream of documents emits. -/
def streamEmission (env : Env) (docs : List Document) : Emission :=
  Emission.concat (docs.map (documentEmission env)) .nil

theorem streamEmission_error_eq_none {docs : List Document} :
    (streamEmission env docs).error = none ↔
      ∀ doc ∈ docs, (documentEmission env doc).error = none := by
  rw [streamEmission, Emission.concat_error_eq_none, List.forall_mem_map]

/-- The hashes of the documents of an item. -/
def itemHashes (env : Env) (item : WorkItem) : List U128 :=
  (streamed env.simd item).flatMap fun doc => (documentEmission env doc).hashes

/-- If nothing throws, the hashes are those of all documents. -/
theorem streamEmission_hashes {docs : List Document} (h : (streamEmission env docs).error = none) :
    (streamEmission env docs).hashes =
      docs.flatMap fun doc => (documentEmission env doc).hashes := by
  rw [streamEmission, Emission.concat_hashes h, List.flatMap_map]

/-- A stream of some document that does not throw emits a hash. -/
theorem streamEmission_hashes_ne_nil {docs : List Document}
    (h : (streamEmission env docs).error = none) (hdocs : docs ≠ []) :
    (streamEmission env docs).hashes ≠ [] := by
  cases docs with
  | nil => exact absurd rfl hdocs
  | cons doc docs =>
    have hdoc := streamEmission_error_eq_none.mp h doc List.mem_cons_self
    apply Emission.append_hashes_ne_nil
    cases doc with
    | ok val => exact emissions_hashes_ne_nil env val 0 hdoc
    | error e => cases hdoc

theorem streamEmission_map_ok (docs : List Element) :
    streamEmission env (docs.map .ok) = documentsEmission env docs := by
  rw [streamEmission, documentsEmission, List.map_map]
  rfl

/-- One walk after the other is fed by traversing the walks. -/
theorem forM_emit (P : Policy) (l : List Emission) :
    forM l (emit P) = emit P (Emission.concat l .nil) := by
  induction l with
  | nil => rfl
  | cons a l ih =>
    rw [Emission.concat_cons, emit_append, ← ih]
    rfl

/-- **A worker feeds its accumulator with what its items emit**, for every file. -/
theorem forM_workerBody (items : List WorkItem) :
    forM items (workerBody env.simd (hashBasicValues env P)) =
      emit P (streamEmission env (items.flatMap (streamed env.simd))) := by
  have hdoc : ∀ doc, hashDocument (hashBasicValues env P) doc =
      emit P (documentEmission env doc) := by
    intro doc
    cases doc with
    | ok val => exact hashBasicValues_eq_emit env P val 0
    | error e => rfl
  rw [streamEmission, ← forM_emit, List.forM_map, ← forM_flatMap]
  refine forM_congr_mem fun item _ => ?_
  rw [workerBody_eq]
  exact forM_congr_mem fun doc _ => hdoc doc

/-- Feeding succeeds only if nothing throws, and then it feeds the hashes. -/
theorem run_emit_ok {x : Emission} {s s' : P.Accumulator} (h : (emit P x).run s = .ok () s') :
    x.error = none ∧ (forM x.hashes P.accumulate).run s = .ok () s' := by
  obtain ⟨hs, e⟩ := x
  cases e with
  | none => simpa [emit] using h
  | some e =>
    -- whatever the hashes do, the throw comes after them
    simp only [emit, EStateM.run_bind] at h
    cases hrun : (forM hs P.accumulate).run s with
    | ok u t => rw [hrun] at h; cases h
    | error e' t => rw [hrun] at h; cases h

/-- The hashes that a worker feeds to its accumulator. -/
def workerHashes (env : Env) (tr : List (Event workers)) (i : Fin workers) : List U128 :=
  (streamEmission env ((taken i tr).flatMap (streamed env.simd))).hashes

/-- Workers that all ended met nothing that throws, and each fed one accumulator with its hashes. -/
theorem workers_fed {tr : List (Event workers)} {results : Fin workers → P.Accumulator}
    (h : ∀ i, (forM (taken i tr) (workerBody env.simd (hashBasicValues env P))).run P.init =
      .ok () (results i)) :
    (∀ i, (streamEmission env ((taken i tr).flatMap (streamed env.simd))).error = none) ∧
    List.Forall₂ (fun part s => (forM part P.accumulate).run P.init = .ok () s)
      (List.ofFn (workerHashes env tr)) (List.ofFn results) := by
  have hfed : ∀ i, _ := fun i => run_emit_ok (forM_workerBody (taken i tr) ▸ h i)
  refine ⟨fun i => (hfed i).1, List.forall₂_iff_get.mpr ⟨by simp, fun i hi hi' => ?_⟩⟩
  simpa [workerHashes] using (hfed _).2

/-- If no document of the file throws, none of the documents that a worker meets does. -/
theorem taken_error_eq_none (hfile : file.Readable) {tr : List (Event workers)}
    {s : State (hashPipeline env P workers chunkSize file)}
    (h : (system (hashPipeline env P workers chunkSize file)).Run tr s)
    (herr : (streamEmission env (streamedFile env.simd chunkSize file)).error = none)
    (i : Fin workers) :
    (streamEmission env ((taken i tr).flatMap (streamed env.simd))).error = none := by
  have hpushes : pushes (hashPipeline env P workers chunkSize file).effects =
      chunks chunkSize file.content := pushes_chunkCall hfile chunkSize
  rw [streamEmission_error_eq_none, streamedFile, List.forall_mem_flatMap] at herr
  rw [streamEmission_error_eq_none, List.forall_mem_flatMap]
  exact fun item hitem => herr item (hpushes ▸ mem_pushes_of_mem_taken h hitem)

/-- A worker whose documents do not throw comes to its end. -/
theorem worker_ends (hP : Mergeable P.init P.accumulate P.reduce R) {items : List WorkItem}
    (h : (streamEmission env (items.flatMap (streamed env.simd))).error = none) {e : Exn}
    {result : P.Accumulator} :
    (forM items (workerBody env.simd (hashBasicValues env P))).run P.init ≠ .error e result := by
  obtain ⟨s, -, hemit⟩ :=
    run_emit hP (streamEmission env (items.flatMap (streamed env.simd))) hP.init
  rw [forM_workerBody, hemit, h]
  simp

/-- **A normal return is a distribution** of the hashes of the file: nothing has thrown, each worker
fed one accumulator with the hashes of the items it took, and all of them were reduced into a fresh
one.  This holds for every file, well-formed or not. -/
theorem Run.distributed {tr : List (Event workers)}
    {s : State (hashPipeline env P workers chunkSize file)}
    (h : (system (hashPipeline env P workers chunkSize file)).Run tr s) {glob : P.Accumulator}
    (hleft : s.main = .left (.ok glob)) :
    (streamEmission env (streamedFile env.simd chunkSize file)).error = none ∧
    ∃ parts : List (List U128),
      parts.flatten.Perm (streamEmission env (streamedFile env.simd chunkSize file)).hashes ∧
      Distributed P parts glob := by
  obtain ⟨hend, -, hpops, -, hworkers, hreduce⟩ := Run.left_ok h hleft
  have hpushes : pushes (hashPipeline env P workers chunkSize file).effects =
      chunks chunkSize file.content :=
    pushes_chunkCall ((chunkCall_spec file chunkSize).2.mp hend) chunkSize
  rw [hpushes] at hpops
  obtain ⟨hquiet, hfed⟩ := workers_fed hworkers
  have hdocs := hquiet
  simp only [streamEmission_error_eq_none, List.forall_mem_flatMap] at hdocs
  -- every document was met by the worker that took its chunk
  have herr : (streamEmission env (streamedFile env.simd chunkSize file)).error = none := by
    rw [streamEmission_error_eq_none, streamedFile, List.forall_mem_flatMap, ← hpops]
    intro item hitem
    obtain ⟨⟨i, item'⟩, hpop, rfl⟩ := List.mem_map.mp hitem
    exact hdocs i item' (mem_taken.mpr hpop)
  refine ⟨herr, List.ofFn (workerHashes env tr), ?_, _, hfed, hreduce⟩
  have hparts : workerHashes env tr = fun i => (taken i tr).flatMap (itemHashes env) :=
    funext fun i => (streamEmission_hashes (hquiet i)).trans List.flatMap_assoc
  rw [hparts, streamEmission_hashes herr, streamedFile, List.flatMap_assoc, ← hpops]
  exact flatten_taken _ tr

/-- **One outcome for every interleaving.**  If hashing some document of the file throws, the call
throws; otherwise it returns an accumulator of the hashes of all documents of the file. -/
theorem Run.summary (hP : Mergeable P.init P.accumulate P.reduce R)
    (hreads : ReadsLines env.simd parse) (hfile : file.Readable)
    (hdocs : LineDocuments parse (lines file.content) docs) {tr : List (Event workers)}
    {s : State (hashPipeline env P workers chunkSize file)}
    (h : (system (hashPipeline env P workers chunkSize file)).Run tr s)
    {r : Except Exn P.Accumulator} (hleft : s.main = .left r) :
    match (documentsEmission env docs).error with
    | none => ∃ glob, r = .ok glob ∧ R (documentsEmission env docs).hashes glob
    | some _ => ∃ e, r = .error e := by
  rw [← streamEmission_map_ok, ← streamedFile_eq hreads hdocs chunkSize]
  cases r with
  | ok glob =>
    obtain ⟨herr, parts, hparts, hdist⟩ := Run.distributed h hleft
    simp only [herr]
    refine ⟨glob, rfl, ?_⟩
    rw [← Multiset.coe_eq_coe.mpr hparts]
    exact hdist.represents hP
  | error e =>
    cases herr : (streamEmission env (streamedFile env.simd chunkSize file)).error with
    | some e' => exact ⟨e, rfl⟩
    | none =>
      rcases Run.left_error h hleft with hend | ⟨i, hworker⟩ | ⟨hworkers, acc, hreduce⟩
      · have hok : (hashPipeline env P workers chunkSize file).chunkEnd = .ok () :=
          (chunkCall_spec file chunkSize).2.mpr hfile
        simp [hok] at hend
      · -- a worker throws only over a document that does, and the file has none
        exact absurd hworker (worker_ends hP (taken_error_eq_none hfile h herr i))
      · -- reducing what was fed does not throw
        obtain ⟨glob, hreduce', -⟩ := hP.reduce_distributed (workers_fed hworkers).2
        cases hreduce.symm.trans hreduce'

end Summary

/-- With a worker, every run can be continued until the call has been left. -/
theorem exists_outcome {J : Pipeline} (hworkers : 0 < J.numWorkers)
    {tr : List (Event J.numWorkers)} {s : State J} (h : (system J).Run tr s) :
    ∃ tr' s' r, (system J).Run (tr ++ tr') s' ∧ s'.main = .left r := by
  obtain ⟨tr', s', hrun, hstuck⟩ := h.exists_stuck fun _ _ _ hst => step_decreases hst
  cases hmain : s'.main with
  | left r => exact ⟨tr', s', r, hrun, hmain⟩
  | _ => exact absurd hstuck (not_stuck ⟨_, hrun⟩ (by simp [hmain, MainPc.isLeft]) (.inl hworkers))

/-- A call comes to its end under every interleaving: it never gets stuck, and its runs are
bounded. -/
def Ends (J : Pipeline) : Prop :=
  NeverStuck J ∧ ∃ bound, ∀ tr s, (system J).Run tr s → tr.length ≤ bound

/-- With a worker, every call comes to its end. -/
theorem ends_of_workers {J : Pipeline} (hworkers : 0 < J.numWorkers) : Ends J := by
  constructor
  · intro s hs hleft
    exact not_stuck hs hleft (.inl hworkers)
  · exact ⟨_, fun tr s hrun => hrun.length_le fun _ _ _ hst => step_decreases hst⟩

end Dataprint.Pipeline
