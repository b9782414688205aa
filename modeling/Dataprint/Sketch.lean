import Dataprint.Pipeline.Summary

/-!
# Sketching a File

`Processor::sketch` runs the pipeline with `MinKPolicy` (`src/processor.cpp`).  `Sketch`
relates a file to the results that the call may have, one for every interleaving.

- `Sketch.isSketch` — whatever the interleaving, the sketch of a file holds the `K`
  smallest of its distinct hashes; nothing is assumed of the file or of the parser;
- `Sketch.nonempty` — a file with a document has a hash;
- `streamedFile_reordered` and `emittedHashes_eq_of_perm` — reordering the lines of a file leaves
  its hashes as they are;
- `exists_sketch_strings` — a file with any number of distinct hashes.
-/

namespace Dataprint

open Foundations Pipeline

section Sketch

variable {env : Env} {workers chunkSize : ℕ} {file file' : File} {acc acc' : MinKAccumulator}

/-- `Processor::sketch`: a result that the call may have. -/
def Sketch (env : Env) (workers chunkSize : ℕ) (file : File) (r : Except Exn MinKAccumulator) :
    Prop :=
  ∃ tr s, (system (hashPipeline env minKPolicy workers chunkSize file)).Run tr s ∧ s.main = .left r

/-- The distinct hashes that the documents of a file emit. -/
def emittedHashes (env : Env) (chunkSize : ℕ) (file : File) : Finset U128 :=
  (streamEmission env (streamedFile env.simd chunkSize file)).hashes.toFinset

/-- No document of a file that was sketched throws. -/
theorem Sketch.error_eq_none (h : Sketch env workers chunkSize file (.ok acc)) :
    (streamEmission env (streamedFile env.simd chunkSize file)).error = none := by
  obtain ⟨tr, s, hrun, hleft⟩ := h
  exact (Run.distributed hrun hleft).1

/-- **The sketch of a file is its bottom-`K` set**, under every interleaving. -/
theorem Sketch.isSketch (h : Sketch env workers chunkSize file (.ok acc)) :
    IsSketch K (emittedHashes env chunkSize file) acc := by
  obtain ⟨tr, s, hrun, hleft⟩ := h
  obtain ⟨-, parts, hperm, hdist⟩ := Run.distributed hrun hleft
  have hrep := hdist.represents minKPolicy_mergeable
  rwa [Multiset.coe_eq_coe.mpr hperm] at hrep

theorem Sketch.hashes_eq (h : Sketch env workers chunkSize file (.ok acc)) :
    acc.hashes = smallest K (emittedHashes env chunkSize file) :=
  h.isSketch.hashes_eq

/-- A file that was sketched and has a document has a hash. -/
theorem Sketch.nonempty (h : Sketch env workers chunkSize file (.ok acc))
    (hdocs : streamedFile env.simd chunkSize file ≠ []) :
    (emittedHashes env chunkSize file).Nonempty := by
  rw [emittedHashes, List.toFinset_nonempty_iff]
  exact streamEmission_hashes_ne_nil h.error_eq_none hdocs

/-! ## The same documents in another order -/

/-- The hashes of a file depend on its documents, not on their order. -/
theorem emittedHashes_eq_of_perm (h : Sketch env workers chunkSize file (.ok acc))
    (h' : Sketch env workers chunkSize file' (.ok acc'))
    (hperm : (streamedFile env.simd chunkSize file).Perm (streamedFile env.simd chunkSize file')) :
    emittedHashes env chunkSize file = emittedHashes env chunkSize file' := by
  rw [emittedHashes, emittedHashes, streamEmission_hashes h.error_eq_none,
    streamEmission_hashes h'.error_eq_none]
  exact List.toFinset_eq_of_perm _ _ (hperm.flatMap_right _)

/-- Reordering the lines of a file reorders its documents. -/
theorem streamedFile_reordered {simd : Simdjson} {parse : Bytes → Option Element}
    (hreads : ReadsLines simd parse) {docs : List Element}
    (hdocs : LineDocuments parse (lines file.content) docs)
    (hperm : (lines file.content).Perm (lines file'.content)) (chunkSize : ℕ) :
    (streamedFile simd chunkSize file).Perm (streamedFile simd chunkSize file') := by
  obtain ⟨docs', hdocs', hlines⟩ := LineDocuments.perm hperm hdocs
  rw [streamedFile_eq hreads hdocs, streamedFile_eq hreads hlines]
  exact hdocs'.map _

/-! ## Existence -/

/-- With a worker, a call comes to its end. -/
theorem exists_sketch (hworkers : 0 < workers) (chunkSize : ℕ) (file : File) :
    ∃ r, Sketch env workers chunkSize file r := by
  obtain ⟨tr, s, r, hrun, hleft⟩ := exists_outcome
    (J := hashPipeline env minKPolicy workers chunkSize file) hworkers .start
  exact ⟨r, _, s, hrun, hleft⟩

/-- A readable file of one document a line that does not throw is sketched. -/
theorem exists_sketch_ok {parse : Bytes → Option Element} {docs : List Element}
    (hworkers : 0 < workers) (hreads : ReadsLines env.simd parse) (hfile : file.Readable)
    (hdocs : LineDocuments parse (lines file.content) docs)
    (herr : (documentsEmission env docs).error = none) :
    ∃ acc, Sketch env workers chunkSize file (.ok acc) := by
  obtain ⟨r, tr, s, hrun, hleft⟩ := exists_sketch hworkers chunkSize file
  have hsum := Run.summary (P := minKPolicy) minKPolicy_mergeable hreads hfile hdocs hrun hleft
  simp only [herr] at hsum
  obtain ⟨acc, rfl, -⟩ := hsum
  exact ⟨acc, tr, s, hrun, hleft⟩

end Sketch

/-! ## Files with many hashes

The line of `n` is an array with one string of length `n`.  With a hash function that tells strings
of different lengths apart, a file of such lines has as many distinct hashes as lines. -/

/-- `["aaa"]`, with `n` letters. -/
def stringLine (n : ℕ) : Bytes := [0x5b, 0x22] ++ List.replicate n 0x61 ++ [0x22, 0x5d]

/-- `"aaa"`, with `n` letters. -/
def stringToken (n : ℕ) : Token where
  text := 0x22 :: (List.replicate n 0x61 ++ [0x22])
  notContainer := (by decide : JsonType.string ≠ .object ∧ JsonType.string ≠ .array)

def stringDocument (n : ℕ) : Element := .array [.scalar (stringToken n)] none

def parseStrings (line : Bytes) : Option Element :=
  if line = stringLine (line.length - 4) then some (stringDocument (line.length - 4)) else none

/-- An environment that reads such lines, and in which the hash of a string is its length. -/
def Env.strings : Env where
  __ := Env.plain (Simdjson.ofLines parseStrings)
  simd := { Simdjson.ofLines parseStrings with
    getString := fun token => .ok token.text.tail.dropLast }
  xxh3Bits128 bytes := ⟨0, BitVec.ofNat 64 bytes.length⟩

def stringFile (ns : List ℕ) : File where
  name := "strings.json"
  content := ns.flatMap fun n => stringLine n ++ [newline]
  fd := some 3
  statOk := true
  mapOk := true
  loadError := none

/-- The hash that the line of `n` emits. -/
def stringHash (n : ℕ) : U128 :=
  combineU128 (mixHash (BitVec.ofNat 64 n) 0 (mix 0 (Env.strings.xxh3Bits64 (arrayIndexPrefix 0))))

theorem stringHash_injOn : Set.InjOn stringHash {n | n < 2 ^ 64} := by
  intro m hm n hn h
  have hhigh := combineU128_mixHash_injective _ _ h
  have hnat := congrArg BitVec.toNat hhigh
  rwa [BitVec.toNat_ofNat, BitVec.toNat_ofNat, Nat.mod_eq_of_lt hm, Nat.mod_eq_of_lt hn] at hnat

theorem emissions_stringDocument (n : ℕ) :
    emissions Env.strings (stringDocument n) 0 = .single (stringHash n) := by
  have htext : (stringToken n).text.tail.dropLast = List.replicate n 0x61 := by
    simp [stringToken]
  have htoken : XXHash Env.strings (mix 0 (Env.strings.xxh3Bits64 (arrayIndexPrefix 0)))
      (stringToken n) = .ok (mixHash (BitVec.ofNat 64 n) 0
        (mix 0 (Env.strings.xxh3Bits64 (arrayIndexPrefix 0)))) := by
    have hbytes : scalarBytes Env.strings (stringToken n) =
        .ok (some (List.replicate n 0x61)) := by
      rw [← htext]
      rfl
    simp only [XXHash, hbytes]
    simp [Env.strings]
  rw [stringDocument, emissions, childrenEmission, emissions, htoken]
  rfl

theorem documentsEmission_strings (ns : List ℕ) :
    documentsEmission Env.strings (ns.map stringDocument) = ⟨ns.map stringHash, none⟩ := by
  induction ns with
  | nil => rfl
  | cons n ns ih =>
    rw [List.map_cons, documentsEmission_cons, emissions_stringDocument, ih]
    rfl

theorem lineDocuments_stringFile (ns : List ℕ) :
    LineDocuments parseStrings (lines (stringFile ns).content) (ns.map stringDocument) := by
  simp only [stringFile]
  induction ns with
  | nil => exact .empty
  | cons n ns ih =>
    have hnewline : newline ∉ stringLine n := by
      simp [stringLine, newline]
    have hparse : parseStrings (stringLine n) = some (stringDocument n) := by
      have hlen : (stringLine n).length - 4 = n := by simp [stringLine]
      rw [parseStrings, hlen, if_pos rfl]
    rw [List.flatMap_cons, List.append_assoc, List.singleton_append, lines_append_newline, lines,
      List.splitOn_eq_singleton hnewline]
    exact .document rfl hparse rfl ih

theorem Env.strings_readsLines : ReadsLines Env.strings.simd parseStrings :=
  Simdjson.ofLines_readsLines parseStrings

theorem streamedFile_strings (chunkSize : ℕ) (ns : List ℕ) :
    streamedFile Env.strings.simd chunkSize (stringFile ns) = (ns.map stringDocument).map .ok :=
  streamedFile_eq Env.strings_readsLines (lineDocuments_stringFile ns) chunkSize

theorem emittedHashes_strings (ns : List ℕ) :
    emittedHashes Env.strings 1 (stringFile ns) = ns.toFinset.image stringHash := by
  rw [emittedHashes, streamedFile_strings, streamEmission_map_ok, documentsEmission_strings]
  ext h
  simp

/-- **A file with as many hashes as lines** can be sketched. -/
theorem exists_sketch_strings (ns : List ℕ) :
    ∃ acc, Sketch Env.strings 1 1 (stringFile ns) (.ok acc) := by
  have herr := congrArg Emission.error (documentsEmission_strings ns)
  exact exists_sketch_ok Nat.one_pos Env.strings_readsLines (by simp [File.Readable, stringFile])
    (lineDocuments_stringFile ns) herr

theorem card_image_stringHash {s : Finset ℕ} (h : ∀ n ∈ s, n < 2 ^ 64) :
    (s.image stringHash).card = s.card :=
  Finset.card_image_of_injOn (stringHash_injOn.mono h)

end Dataprint
