import Dataprint.Pipeline.Summary

/-!
# Fingerprinting

`fingerprint_s` hashes each file in one go; `fingerprint` runs the pipeline on each file
(`src/processor.cpp`).  Both set `M` to zero before a file, add what they computed, and
print `M` with the name of the file.

- `fingerprintS` is a function; `Fingerprint` relates a list of files to the results that
  `fingerprint` may have, one for every choice of interleavings;
- `expected` is the result in terms of the documents: after each file, `M` is the residue
  of the sum of the hashes of that file;
- `fingerprint_eq_fingerprintS` says that this is the result of both, under every
  interleaving.
-/

namespace Dataprint

open Foundations Pipeline

/-! ## Printing -/

/-- The character of a hexadecimal digit. -/
def hexDigit (nibble : ℕ) : Char :=
  if nibble < 10 then Char.ofNat (0x30 + nibble) else Char.ofNat (0x61 + nibble - 10)

/-- The loop of `operator<<`, which writes the buffer from its end. -/
def hexLoop (value : U128) (p : List Char) : List Char :=
  if h : value > 0 then
    hexLoop (value >>> 4) (hexDigit (value &&& 0xF).toNat :: p)
  else
    p
termination_by value.toNat
decreasing_by
  have hpos : 0 < value.toNat := by simpa [BitVec.lt_def] using h
  rw [BitVec.toNat_ushiftRight, Nat.shiftRight_eq_div_pow]
  exact Nat.div_lt_self hpos (by decide)

/-- `operator<<` for a 128-bit integer. -/
def showU128 (value : U128) : String :=
  if value = 0 then "0" else String.ofList (hexLoop value [])

/-- The line that `printFingerprint` writes. -/
def fingerprintLine (M : U128) (file : String) : String :=
  "fingerprint: " ++ showU128 M ++ "  " ++ file ++ "\n"

/-! ## The processor -/

/-- The fields of a `Processor` that the two commands change: `M` and the lines written so far. -/
structure Processor where
  M : U128
  stream : List String
  deriving DecidableEq

namespace Processor

def addToM (sum : U128) : EStateM Exn Processor Unit :=
  modify fun p => { p with M := addMod p.M sum }

def printFingerprint (file : String) : EStateM Exn Processor Unit :=
  modify fun p => { p with stream := p.stream ++ [fingerprintLine p.M file] }

/-- `M = 0` -/
def resetM : EStateM Exn Processor Unit := modify fun p => { p with M := 0 }

end Processor

open Processor

/-- `padded_string::load` -/
def File.load (file : File) : Except ErrorCode Bytes :=
  match file.loadError with
  | none => .ok file.content
  | some e => .error e

/-- Runs a computation on a local variable and returns what it holds in the end. -/
def runLocal {σ τ : Type} (init : τ) (x : EStateM Exn τ Unit) : EStateM Exn σ τ :=
  match x.run init with
  | .ok _ acc => pure acc
  | .error e _ => throw e

variable (env : Env)

/-- `hashBasicValues` on `doc.value()`, which throws if the document is no value. -/
def hashStreamed (P : Policy) (doc : Document) : EStateM Exn P.Accumulator Unit := do
  let val ← ofExcept (valueOrThrow doc)
  hashBasicValues env P val 0

/-- The body of the loop of `Processor::fingerprint_s`. -/
def fingerprintSFile (file : File) : EStateM Exn Processor Unit := do
  resetM
  let json ← ofExcept (valueOrThrow file.load)
  let (error, docs) := getInto (env.simd.iterateMany json) (env.simd.unsetStream json)
  match error with
  | some e => throw (jsonParseError e)
  | none =>
    let localAcc ← runLocal FingerprintPolicy.init
      (forM docs (hashStreamed env fingerprintPolicy))
    addToM localAcc
    printFingerprint file.name

/-- `Processor::fingerprint_s` -/
def fingerprintS (files : List File) : EStateM Exn Processor Unit :=
  forM files (fingerprintSFile env)

/-- `Processor::fingerprint`: the results it may have on a list of files.  Each file is one complete
run of the pipeline; an exception that leaves `run_pipeline` leaves this loop as well. -/
inductive Fingerprint (workers chunkSize : ℕ) :
    List File → Processor → EStateM.Result Exn Processor Unit → Prop where
  | done (p : Processor) : Fingerprint workers chunkSize [] p (.ok () p)
  | file {file : File} {files : List File} {p p' : Processor} {tr : List (Event workers)}
      {s : State (hashPipeline env fingerprintPolicy workers chunkSize file)} {result : U128}
      {r : EStateM.Result Exn Processor Unit} :
      (system (hashPipeline env fingerprintPolicy workers chunkSize file)).Run tr s →
      s.main = .left (.ok result) →
      (do resetM; addToM result; printFingerprint file.name).run p = .ok () p' →
      Fingerprint workers chunkSize files p' r →
      Fingerprint workers chunkSize (file :: files) p r
  | throw {file : File} {files : List File} {p p' : Processor} {tr : List (Event workers)}
      {s : State (hashPipeline env fingerprintPolicy workers chunkSize file)} {e : Exn} :
      (system (hashPipeline env fingerprintPolicy workers chunkSize file)).Run tr s →
      s.main = .left (.error e) →
      resetM.run p = .ok () p' →
      Fingerprint workers chunkSize (file :: files) p (.error e p')

/-! ## What is printed -/

/-- The sum of the hashes modulo the prime. -/
def residue (hashes : List U128) : U128 :=
  BitVec.ofNat 128 ((hashes.map BitVec.toNat).sum % primeNat)

/-- A sum that is added to zero is the residue. -/
theorem addMod_zero_of_isSum {hashes : List U128} {acc : U128} (h : IsSum hashes acc) :
    addMod 0 acc = residue hashes := by
  have hlt := Nat.mod_lt (hashes.map BitVec.toNat).sum primeNat_pos
  have hsmall : primeNat < 2 ^ 128 := by decide
  apply BitVec.eq_of_toNat_eq
  rw [toNat_addMod, residue, BitVec.toNat_ofNat, Nat.mod_eq_of_lt (hlt.trans hsmall)]
  have hacc : acc.toNat = (hashes.map BitVec.toNat).sum % primeNat := by simpa [IsSum] using h
  simp [hacc]

/-- The processor after a file with these hashes, whatever `M` was before. -/
def Processor.after (p : Processor) (file : String) (hashes : List U128) : Processor where
  M := residue hashes
  stream := p.stream ++ [fingerprintLine (residue hashes) file]

/-- The processor in the end: after each file the residue of its own hashes, and zero at the first
file that has a document which cannot be hashed. -/
def expected (docs : File → List Element) : List File → Processor → Processor
  | [], p => p
  | file :: files, p =>
    match (documentsEmission env (docs file)).error with
    | none => expected docs files (p.after file.name (documentsEmission env (docs file)).hashes)
    | some _ => { p with M := 0 }

/-- Some document cannot be hashed. -/
def Throws (docs : File → List Element) (files : List File) : Prop :=
  ∃ file ∈ files, (documentsEmission env (docs file)).error ≠ none

/-- The result leaves the processor in the state `p`, by an exception exactly if `throws`. -/
def EndsIn (p : Processor) (throws : Prop) : EStateM.Result Exn Processor Unit → Prop
  | .ok _ p' => p' = p ∧ ¬ throws
  | .error _ p' => p' = p ∧ throws

variable {env}

theorem run_addToM_printFingerprint {hashes : List U128} {acc : U128} (h : IsSum hashes acc)
    (p : Processor) (file : String) :
    (do resetM; addToM acc; printFingerprint file).run p = .ok () (p.after file hashes) := by
  have hsum := addMod_zero_of_isSum h
  simp only [BitVec.ofNat_eq_ofNat] at hsum
  simp [resetM, addToM, printFingerprint, Processor.after, hsum]

/-! ## One file -/

section OneFile

variable {parse : Bytes → Option Element} {file : File} {docs : List Element}

/-- `fingerprint_s` on one file. -/
theorem run_fingerprintSFile (hreads : ReadsLines env.simd parse) (hload : file.loadError = none)
    (hdocs : LineDocuments parse (lines file.content) docs) (p : Processor) :
    (fingerprintSFile env file).run p =
      match (documentsEmission env docs).error with
      | none => .ok () (p.after file.name (documentsEmission env docs).hashes)
      | some e => .error e { p with M := 0 } := by
  have hread := hreads _ _ hdocs
  have hloop : forM (docs.map (Except.ok : Element → Document))
      (hashStreamed env fingerprintPolicy) =
        emit fingerprintPolicy (documentsEmission env docs) := by
    rw [← hashDocuments_eq_emit]
    simp [hashDocuments, hashStreamed, List.forM_map, valueOrThrow, ofExcept, Except.mapError]
  obtain ⟨acc, hacc, hrun⟩ := run_emit (P := fingerprintPolicy) fingerprintPolicy_mergeable
    (documentsEmission env docs) fingerprintPolicy_mergeable.init
  rw [zero_add] at hacc
  have hprint := run_addToM_printFingerprint hacc p file.name
  have hstart : (fingerprintSFile env file).run p = (do
      resetM
      let localAcc ← runLocal FingerprintPolicy.init
        (emit fingerprintPolicy (documentsEmission env docs))
      addToM localAcc
      printFingerprint file.name).run p := by
    simp only [fingerprintSFile, File.load, hload, valueOrThrow, Except.mapError, ofExcept, hread,
      getInto, hloop, pure_bind]
  rw [hstart]
  cases herr : (documentsEmission env docs).error with
  | none =>
    rw [herr] at hrun
    simp only [runLocal, hrun, pure_bind]
    exact hprint
  | some e =>
    rw [herr] at hrun
    simp only [runLocal, hrun]
    rfl

/-- `fingerprint` on one file: what the pipeline returns, added to zero and printed. -/
theorem run_pipeline_file (hreads : ReadsLines env.simd parse) (hfile : file.Readable)
    (hdocs : LineDocuments parse (lines file.content) docs) {workers chunkSize : ℕ}
    {tr : List (Event workers)}
    {s : State (hashPipeline env fingerprintPolicy workers chunkSize file)}
    (hrun : (system (hashPipeline env fingerprintPolicy workers chunkSize file)).Run tr s)
    {r : Except Exn U128} (hleft : s.main = .left r) :
    match (documentsEmission env docs).error with
    | none => ∃ result, r = .ok result ∧ ∀ p : Processor,
        (do resetM; addToM result; printFingerprint file.name).run p =
          .ok () (p.after file.name (documentsEmission env docs).hashes)
    | some _ => ∃ e, r = .error e := by
  have hsum := Run.summary (P := fingerprintPolicy) fingerprintPolicy_mergeable hreads hfile hdocs
    hrun hleft
  cases herr : (documentsEmission env docs).error with
  | none =>
    simp only [herr] at hsum ⊢
    obtain ⟨result, hr, hresult⟩ := hsum
    exact ⟨result, hr, fun p => run_addToM_printFingerprint hresult p file.name⟩
  | some e => simpa only [herr] using hsum

end OneFile

/-! ## Lists of files -/

section Files

variable {parse : Bytes → Option Element} {docs : File → List Element}

/-- What is asked of a file: it can be read, and each line is blank or one complete document. -/
structure GoodFile (parse : Bytes → Option Element) (docs : File → List Element) (file : File) :
    Prop where
  readable : file.Readable
  loads : file.loadError = none
  lineDocuments : LineDocuments parse (lines file.content) (docs file)

theorem throws_cons (file : File) (files : List File) :
    Throws env docs (file :: files) ↔
      (documentsEmission env (docs file)).error ≠ none ∨ Throws env docs files := by
  simp [Throws]

/-- A first file that throws. -/
theorem endsIn_throw {file : File} {files : List File} {e e' : Exn}
    (he : (documentsEmission env (docs file)).error = some e) (p : Processor) :
    EndsIn (expected env docs (file :: files) p) (Throws env docs (file :: files))
      (.error e' { p with M := 0 }) := by
  refine ⟨by simp [expected, he], ?_⟩
  rw [throws_cons]
  exact .inl (by simp [he])

/-- A first file that does not throw. -/
theorem endsIn_file {file : File} {files : List File}
    (he : (documentsEmission env (docs file)).error = none) {p : Processor}
    {r : EStateM.Result Exn Processor Unit}
    (h : EndsIn (expected env docs files
      (p.after file.name (documentsEmission env (docs file)).hashes)) (Throws env docs files) r) :
    EndsIn (expected env docs (file :: files) p) (Throws env docs (file :: files)) r := by
  have hthrows : Throws env docs (file :: files) ↔ Throws env docs files := by
    simp [throws_cons, he]
  cases r <;> simpa only [EndsIn, expected, he, hthrows] using h

/-- The single-threaded result is the expected one. -/
theorem endsIn_fingerprintS (hreads : ReadsLines env.simd parse) {files : List File}
    (hfiles : ∀ file ∈ files, GoodFile parse docs file) (p : Processor) :
    EndsIn (expected env docs files p) (Throws env docs files) ((fingerprintS env files).run p) := by
  induction files generalizing p with
  | nil => exact ⟨rfl, by simp [Throws]⟩
  | cons file files ih =>
    obtain ⟨hfile, hrest⟩ := List.forall_mem_cons.mp hfiles
    have hrun := run_fingerprintSFile hreads hfile.loads hfile.lineDocuments p
    rw [fingerprintS, List.forM_cons, EStateM.run_bind, hrun]
    cases he : (documentsEmission env (docs file)).error with
    | none => exact endsIn_file he (ih hrest _)
    | some e => exact endsIn_throw he p

/-- Every multi-threaded result is the expected one. -/
theorem Fingerprint.endsIn (hreads : ReadsLines env.simd parse) {workers chunkSize : ℕ}
    {files : List File} (hfiles : ∀ file ∈ files, GoodFile parse docs file) {p : Processor}
    {r : EStateM.Result Exn Processor Unit} (h : Fingerprint env workers chunkSize files p r) :
    EndsIn (expected env docs files p) (Throws env docs files) r := by
  induction h with
  | done p => exact ⟨rfl, by simp [Throws]⟩
  | @file file files p p' tr s result r hrun hleft hprint _ ih =>
    obtain ⟨hfile, hrest⟩ := List.forall_mem_cons.mp hfiles
    have hone := run_pipeline_file hreads hfile.readable hfile.lineDocuments hrun hleft
    cases he : (documentsEmission env (docs file)).error with
    | none =>
      simp only [he] at hone
      obtain ⟨result', hresult, hprint'⟩ := hone
      cases hresult
      cases hprint.symm.trans (hprint' p)
      exact endsIn_file he (ih hrest)
    | some e =>
      simp only [he] at hone
      obtain ⟨e', he'⟩ := hone
      cases he'
  | @throw file files p p' tr s e hrun hleft hreset =>
    obtain ⟨hfile, hrest⟩ := List.forall_mem_cons.mp hfiles
    have hone := run_pipeline_file hreads hfile.readable hfile.lineDocuments hrun hleft
    cases hreset
    cases he : (documentsEmission env (docs file)).error with
    | none =>
      simp only [he] at hone
      obtain ⟨result, hresult, -⟩ := hone
      cases hresult
    | some e' => exact endsIn_throw he p

/-- With a worker, the multi-threaded command has a result. -/
theorem exists_fingerprint {workers : ℕ} (hworkers : 0 < workers) (chunkSize : ℕ)
    (files : List File) (p : Processor) : ∃ r, Fingerprint env workers chunkSize files p r := by
  induction files generalizing p with
  | nil => exact ⟨_, .done p⟩
  | cons file files ih =>
    obtain ⟨tr, s, r, hrun, hleft⟩ := exists_outcome
      (J := hashPipeline env fingerprintPolicy workers chunkSize file) hworkers .start
    cases r with
    | ok result =>
      obtain ⟨r, hr⟩ := ih ⟨addMod 0 result,
        p.stream ++ [fingerprintLine (addMod 0 result) file.name]⟩
      exact ⟨r, .file hrun hleft rfl hr⟩
    | error e => exact ⟨_, .throw hrun hleft rfl⟩

/-- **Multi-threaded and single-threaded fingerprinting agree.**  On files of one document a line,
with at least one worker, for every chunk size: the pipeline over each file ends under every
interleaving, `fingerprint` has a result, and each of its results, like that of `fingerprint_s`,
leaves for every file the residue of the hashes of its own documents in `M` and in the output.
Both throw at the first document that cannot be hashed, if there is one. -/
theorem fingerprint_eq_fingerprintS (env : Env) (parse : Bytes → Option Element)
    (hreads : ReadsLines env.simd parse) (workers chunkSize : ℕ) (hworkers : 0 < workers)
    (docs : File → List Element) (files : List File)
    (hfiles : ∀ file ∈ files, GoodFile parse docs file) (p : Processor) :
    (∀ file : File, NeverStuck (hashPipeline env fingerprintPolicy workers chunkSize file) ∧
      ∃ bound, ∀ tr s, (system (hashPipeline env fingerprintPolicy workers chunkSize file)).Run tr s →
        tr.length ≤ bound) ∧
    (∃ r, Fingerprint env workers chunkSize files p r) ∧
    (∀ r, Fingerprint env workers chunkSize files p r →
      EndsIn (expected env docs files p) (Throws env docs files) r) ∧
    EndsIn (expected env docs files p) (Throws env docs files) ((fingerprintS env files).run p) := by
  refine ⟨fun file => ⟨fun s hs hleft => not_stuck hs hleft (.inl hworkers), ?_⟩,
    exists_fingerprint hworkers chunkSize files p, fun r hr => hr.endsIn hreads hfiles,
    endsIn_fingerprintS hreads hfiles p⟩
  exact ⟨_, fun tr s hrun => hrun.length_le fun _ _ _ hst => step_decreases hst⟩

/-- Two lines in chunks of one byte and more, one worker: both commands print the same line. -/
theorem fingerprint_eq_fingerprintS_two_lines :
    let env := Env.plain (Simdjson.ofLines parseEmpty)
    let file : File := ⟨"a.json", [0x5b, 0x5d, 0x0a, 0x7b, 0x7d, 0x0a], some 3, true, true, none⟩
    let result := (⟨0, []⟩ : Processor).after "a.json" [emptyArrayHash, emptyObjectHash]
    (∃ r, Fingerprint env 1 1 [file] ⟨0, []⟩ r) ∧
      (∀ r, Fingerprint env 1 1 [file] ⟨0, []⟩ r → r = .ok () result) ∧
      (fingerprintS env [file]).run ⟨0, []⟩ = .ok () result := by
  intro env file result
  let docs : File → List Element := fun _ => [.array [] none, .object [] none]
  have hlines : LineDocuments parseEmpty (lines file.content) (docs file) :=
    .document (by decide) rfl rfl (.document (by decide) rfl rfl (.blank (by decide) .nil))
  have hfiles : ∀ f ∈ [file], GoodFile parseEmpty docs f := by
    intro f hf
    cases List.mem_singleton.mp hf
    exact ⟨by decide, rfl, hlines⟩
  obtain ⟨-, hexists, hmulti, hsingle⟩ := fingerprint_eq_fingerprintS env parseEmpty
    (Simdjson.ofLines_readsLines parseEmpty) 1 1 Nat.one_pos docs [file] hfiles ⟨0, []⟩
  have hemission : documentsEmission env (docs file) = ⟨[emptyArrayHash, emptyObjectHash], none⟩ :=
    rfl
  have hend : ∀ r, EndsIn (expected env docs [file] ⟨0, []⟩) (Throws env docs [file]) r →
      r = .ok () result := by
    intro r hr
    have hquiet : ¬ Throws env docs [file] := by simp [Throws, hemission]
    cases r with
    | ok u p =>
      rw [hr.1]
      simp [expected, hemission, result, file]
    | error e p => exact absurd hr.2 hquiet
  exact ⟨hexists, fun r hr => hend r (hmulti r hr), hend _ hsingle⟩

end Files

end Dataprint
