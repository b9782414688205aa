import Dataprint.Fingerprint
import Dataprint.Sketch
import Mathlib.Algebra.Order.Group.Finset

/-!
# Files in Pieces

A file that is cut behind newlines can be fingerprinted or sketched piece by piece, and the results
of the pieces reduced.  Each piece is a call of its own, with its own number of workers, chunk size
and interleaving (`src/processor.cpp`, `include/policies.h`).

- `reduce_pieces` — for any mergeable policy, reducing summaries of the pieces gives a summary of
  the whole;
- `fingerprint_of_pieces` and `sketch_of_pieces` — the results for the two policies;
- `results_of_copies` — a file that is repeated `n` times.
-/

namespace Dataprint

open Foundations Pipeline

section Documents

variable {env : Env}

theorem documentsEmission_error_eq_none {docs : List Element} :
    (documentsEmission env docs).error = none ↔
      ∀ doc ∈ docs, (emissions env doc 0).error = none := by
  rw [documentsEmission, Emission.concat_error_eq_none, List.forall_mem_map]

theorem documentsEmission_hashes {docs : List Element}
    (h : (documentsEmission env docs).error = none) :
    (documentsEmission env docs).hashes = docs.flatMap fun doc => (emissions env doc 0).hashes := by
  rw [documentsEmission, Emission.concat_hashes h, List.flatMap_map]

/-- The documents of the pieces can be hashed exactly if those of the whole can. -/
theorem documentsEmission_flatten_error {parts : List (List Element)} :
    (documentsEmission env parts.flatten).error = none ↔
      ∀ part ∈ parts, (documentsEmission env part).error = none := by
  simp only [documentsEmission_error_eq_none]
  constructor
  · intro h part hpart doc hdoc
    exact h doc (List.mem_flatten_of_mem hpart hdoc)
  · intro h doc hdoc
    obtain ⟨part, hpart, hmem⟩ := List.mem_flatten.mp hdoc
    exact h part hpart doc hmem

theorem documentsEmission_flatten_hashes {parts : List (List Element)}
    (h : ∀ part ∈ parts, (documentsEmission env part).error = none) :
    (documentsEmission env parts.flatten).hashes =
      (parts.map fun part => (documentsEmission env part).hashes).flatten := by
  have hpart : ∀ part ∈ parts, (documentsEmission env part).hashes =
      part.flatMap fun doc => (emissions env doc 0).hashes :=
    fun part hmem => documentsEmission_hashes (h part hmem)
  rw [documentsEmission_hashes (documentsEmission_flatten_error.mpr h), List.map_congr_left hpart,
    List.flatten_eq_flatMap, List.flatMap_assoc, List.flatMap_def]
  rfl

/-- The accumulator stands for the hashes of the documents, all of which can be hashed. -/
def Summarizes (env : Env) {P : Policy} (R : Multiset U128 → P.Accumulator → Prop)
    (docs : List Element) (acc : P.Accumulator) : Prop :=
  (documentsEmission env docs).error = none ∧ R (documentsEmission env docs).hashes acc

/-- **Summaries of the pieces reduce to a summary of the whole.** -/
theorem reduce_pieces {P : Policy} {R : Multiset U128 → P.Accumulator → Prop}
    (hP : Mergeable P.init P.accumulate P.reduce R) {parts : List (List Element)}
    {accs : List P.Accumulator} (h : List.Forall₂ (Summarizes env R) parts accs) :
    ∃ glob, (forM accs P.reduce).run P.init = .ok () glob ∧
      Summarizes env R parts.flatten glob := by
  have hquiet : ∀ part ∈ parts, (documentsEmission env part).error = none := by
    induction h with
    | nil => simp
    | cons hhead _ ih => exact List.forall_mem_cons.mpr ⟨hhead.1, ih⟩
  have hparts : List.Forall₂ R
      (parts.map fun part => ((documentsEmission env part).hashes : Multiset U128)) accs :=
    List.forall₂_map_left_iff.mpr (h.imp fun _ _ hacc => hacc.2)
  obtain ⟨glob, hrun, hglob⟩ := hP.reduce_list hparts hP.init
  refine ⟨glob, hrun, documentsEmission_flatten_error.mpr hquiet, ?_⟩
  -- the hashes of the whole are those of the pieces, one after the other
  have hsum : (parts.map fun part => ((documentsEmission env part).hashes : Multiset U128)).sum =
      (documentsEmission env parts.flatten).hashes := by
    rw [documentsEmission_flatten_hashes hquiet, ← Mergeable.sum_map_coe, List.map_map]
    rfl
  rwa [zero_add, hsum] at hglob

end Documents

/-! ## Pieces of a file -/

/-- The files hold the pieces of a file that is cut behind newlines, and they can be read. -/
structure PiecesOf (whole : File) (pieces : List File) : Prop where
  cut : CutAtNewlines (pieces.map File.content)
  content : (pieces.map File.content).flatten = whole.content
  readable : ∀ piece ∈ pieces, piece.Readable

/-- Each piece has documents of its own. -/
theorem PiecesOf.parts {whole : File} {pieces : List File} (h : PiecesOf whole pieces)
    {parse : Bytes → Option Element} {docs : List Element}
    (hdocs : LineDocuments parse (lines whole.content) docs) :
    ∃ parts, List.Forall₂
        (fun piece part => piece.Readable ∧ LineDocuments parse (lines piece.content) part)
        pieces parts ∧ parts.flatten = docs := by
  rw [← h.content] at hdocs
  obtain ⟨parts, hparts, hflat⟩ := LineDocuments.pieces h.cut hdocs
  rw [List.forall₂_map_left_iff] at hparts
  refine ⟨parts, ?_, hflat⟩
  have hreadable := h.readable
  clear h hdocs hflat
  induction hparts with
  | nil => exact .nil
  | cons hhead _ ih =>
    obtain ⟨hpiece, hrest⟩ := List.forall_mem_cons.mp hreadable
    exact .cons ⟨hpiece, hhead⟩ (ih hrest)

section Results

variable {env : Env} {parse : Bytes → Option Element}

/-- If each result summarizes the documents of its piece, they reduce to a summary of the whole. -/
theorem PiecesOf.reduce {P : Policy} {R : Multiset U128 → P.Accumulator → Prop}
    (hP : Mergeable P.init P.accumulate P.reduce R) {whole : File} {pieces : List File}
    (h : PiecesOf whole pieces) {docs : List Element}
    (hdocs : LineDocuments parse (lines whole.content) docs)
    {Returned : File → P.Accumulator → Prop}
    (hreturned : ∀ piece part acc, piece.Readable → LineDocuments parse (lines piece.content) part →
      Returned piece acc → Summarizes env R part acc)
    {accs : List P.Accumulator} (haccs : List.Forall₂ Returned pieces accs) :
    ∃ glob, (forM accs P.reduce).run P.init = .ok () glob ∧ Summarizes env R docs glob := by
  obtain ⟨parts, hparts, rfl⟩ := h.parts hdocs
  apply reduce_pieces hP
  clear h hdocs
  induction haccs generalizing parts with
  | nil =>
    cases hparts
    exact .nil
  | cons hhead _ ih =>
    cases hparts with
    | cons hpart hrest => exact .cons (hreturned _ _ _ hpart.1 hpart.2 hhead) (ih _ hrest)

/-- A call of the pipeline that returns summarizes the documents of its file. -/
theorem summarizes_of_left_ok {P : Policy} {R : Multiset U128 → P.Accumulator → Prop}
    (hP : Mergeable P.init P.accumulate P.reduce R) (hreads : ReadsLines env.simd parse)
    {file : File} {docs : List Element} (hfile : file.Readable)
    (hdocs : LineDocuments parse (lines file.content) docs) {workers chunkSize : ℕ}
    {tr : List (Event workers)} {s : State (hashPipeline env P workers chunkSize file)}
    (hrun : (system (hashPipeline env P workers chunkSize file)).Run tr s) {acc : P.Accumulator}
    (hleft : s.main = .left (.ok acc)) : Summarizes env R docs acc := by
  have hsum := Run.summary hP hreads hfile hdocs hrun hleft
  cases herr : (documentsEmission env docs).error with
  | none =>
    simp only [herr] at hsum
    obtain ⟨glob, hglob, hrep⟩ := hsum
    cases hglob
    exact ⟨herr, hrep⟩
  | some e =>
    simp only [herr] at hsum
    obtain ⟨e', he'⟩ := hsum
    cases he'

/-- `fingerprint` on this file alone leaves this value in `M`. -/
def FingerprintOf (env : Env) (file : File) (M : U128) : Prop :=
  ∃ workers chunkSize p p', Fingerprint env workers chunkSize [file] p (.ok () p') ∧ p'.M = M

/-- A call for one file that comes to its end, by an exception exactly if a document throws. -/
theorem Fingerprint.single (hreads : ReadsLines env.simd parse) {file : File} {docs : List Element}
    (hfile : file.Readable) (hdocs : LineDocuments parse (lines file.content) docs)
    {workers chunkSize : ℕ} {p : Processor} {r : EStateM.Result Exn Processor Unit}
    (h : Fingerprint env workers chunkSize [file] p r) :
    match r with
    | .ok _ p' => Summarizes env (P := fingerprintPolicy) IsSum docs p'.M
    | .error _ _ => (documentsEmission env docs).error ≠ none := by
  cases h with
  | @file _ _ _ p' tr s result r hrun hleft hprint hrest =>
    cases hrest
    have hone := run_pipeline_file hreads hfile hdocs hrun hleft
    cases herr : (documentsEmission env docs).error with
    | none =>
      simp only [herr] at hone
      obtain ⟨result', hresult, hprint'⟩ := hone
      cases hresult
      cases hprint.symm.trans (hprint' p)
      refine ⟨herr, ?_⟩
      have hlt := Nat.mod_lt ((documentsEmission env docs).hashes.map BitVec.toNat).sum primeNat_pos
      have hsmall : primeNat < 2 ^ 128 := by decide
      simp only [Processor.after, residue, IsSum, BitVec.toNat_ofNat]
      rw [Nat.mod_eq_of_lt (hlt.trans hsmall)]
      simp
    | some e =>
      simp only [herr] at hone
      obtain ⟨e', he'⟩ := hone
      cases he'
  | @throw _ _ _ p' tr s e hrun hleft hreset =>
    have hone := run_pipeline_file hreads hfile hdocs hrun hleft
    intro herr
    simp only [herr] at hone
    obtain ⟨result, hresult, -⟩ := hone
    cases hresult

/-- **Fingerprints of pieces add up.**  A file is cut behind newlines, and each piece is
fingerprinted by a call of its own that returns.  Then a call for the whole, if it has a worker,
comes to its end under every interleaving, and every call that ends returns and leaves in `M` what
`reduce` makes of the values of the pieces. -/
theorem fingerprint_of_pieces (env : Env) (parse : Bytes → Option Element)
    (hreads : ReadsLines env.simd parse) (whole : File) (hwhole : whole.Readable)
    (docs : List Element) (hdocs : LineDocuments parse (lines whole.content) docs)
    (pieces : List File) (hpieces : PiecesOf whole pieces) (Ms : List U128)
    (hMs : List.Forall₂ (FingerprintOf env) pieces Ms) :
    ∀ workers chunkSize p,
      (0 < workers → Ends (hashPipeline env fingerprintPolicy workers chunkSize whole) ∧
        ∃ r, Fingerprint env workers chunkSize [whole] p r) ∧
      ∀ r, Fingerprint env workers chunkSize [whole] p r →
        ∃ p', r = .ok () p' ∧
          (forM Ms FingerprintPolicy.reduce).run FingerprintPolicy.init = .ok () p'.M := by
  obtain ⟨glob, hrun, hglob⟩ :=
    hpieces.reduce (P := fingerprintPolicy) fingerprintPolicy_mergeable hdocs (by
      rintro piece part M hread hpart ⟨workers, chunkSize, p, p', h, rfl⟩
      exact h.single hreads hread hpart) hMs
  intro workers chunkSize p
  refine ⟨fun hworkers => ⟨ends_of_workers hworkers, exists_fingerprint hworkers _ _ p⟩, ?_⟩
  intro r h
  have hsingle := h.single hreads hwhole hdocs
  cases r with
  | ok u p' =>
    refine ⟨p', rfl, ?_⟩
    rw [hsingle.2.unique hglob.2]
    exact hrun
  | error e p' => exact absurd hglob.1 hsingle

/-- With a worker, a file whose documents can be hashed has a fingerprint. -/
theorem exists_fingerprintOf (hreads : ReadsLines env.simd parse) {file : File}
    {docs : List Element} (hfile : file.Readable)
    (hdocs : LineDocuments parse (lines file.content) docs)
    (herr : (documentsEmission env docs).error = none) : ∃ M, FingerprintOf env file M := by
  obtain ⟨r, h⟩ : ∃ r, Fingerprint env 1 1 [file] ⟨0, []⟩ r :=
    exists_fingerprint Nat.one_pos 1 [file] ⟨0, []⟩
  have hsingle := h.single hreads hfile hdocs
  cases r with
  | ok u p' => exact ⟨p'.M, 1, 1, ⟨0, []⟩, p', h, rfl⟩
  | error e p' => exact absurd herr hsingle

/-- A file of one line. -/
def oneLine (line : Bytes) : File := ⟨"part.json", line ++ [newline], some 3, true, true, none⟩

/-- A file with an empty array and an empty object. -/
def twoLines : File :=
  ⟨"whole.json", [0x5b, 0x5d, 0x0a, 0x7b, 0x7d, 0x0a], some 4, true, true, none⟩

theorem piecesOf_twoLines : PiecesOf twoLines [oneLine [0x5b, 0x5d], oneLine [0x7b, 0x7d]] where
  cut := .cons [0x5b, 0x5d] (.last _)
  content := rfl
  readable := by decide

theorem lineDocuments_twoLines :
    LineDocuments parseEmpty (lines twoLines.content) [.array [] none, .object [] none] :=
  .document (by decide) rfl rfl (.document (by decide) rfl rfl .empty)

theorem lineDocuments_array :
    LineDocuments parseEmpty (lines (oneLine [0x5b, 0x5d]).content) [.array [] none] :=
  .document (by decide) rfl rfl .empty

theorem lineDocuments_object :
    LineDocuments parseEmpty (lines (oneLine [0x7b, 0x7d]).content) [.object [] none] :=
  .document (by decide) rfl rfl .empty

/-- Each of the two lines in a file of its own. -/
theorem fingerprint_of_two_lines :
    let env := Env.plain (Simdjson.ofLines parseEmpty)
    ∃ M M', FingerprintOf env (oneLine [0x5b, 0x5d]) M ∧
      FingerprintOf env (oneLine [0x7b, 0x7d]) M' ∧
      ∀ workers chunkSize p,
        (0 < workers → Ends (hashPipeline env fingerprintPolicy workers chunkSize twoLines) ∧
          ∃ r, Fingerprint env workers chunkSize [twoLines] p r) ∧
        ∀ r, Fingerprint env workers chunkSize [twoLines] p r →
          ∃ p', r = .ok () p' ∧
            (forM [M, M'] FingerprintPolicy.reduce).run FingerprintPolicy.init = .ok () p'.M := by
  intro env
  have hreads : ReadsLines env.simd parseEmpty := Simdjson.ofLines_readsLines parseEmpty
  obtain ⟨M, hM⟩ := exists_fingerprintOf hreads (by decide) lineDocuments_array rfl
  obtain ⟨M', hM'⟩ := exists_fingerprintOf hreads (by decide) lineDocuments_object rfl
  exact ⟨M, M', hM, hM', fingerprint_of_pieces env parseEmpty hreads twoLines (by decide) _
    lineDocuments_twoLines _ piecesOf_twoLines [M, M'] (.cons hM (.cons hM' .nil))⟩

/-- **Sketches of pieces merge.**  A file is cut behind newlines, and each piece is sketched by a
call of its own that returns.  Then a call for the whole, if it has a worker, comes to its end under
every interleaving, every call that ends returns, and what `reduce` makes of the sketches of the
pieces holds the same hashes as its sketch. -/
theorem sketch_of_pieces (env : Env) (parse : Bytes → Option Element)
    (hreads : ReadsLines env.simd parse) (whole : File) (hwhole : whole.Readable)
    (docs : List Element) (hdocs : LineDocuments parse (lines whole.content) docs)
    (pieces : List File) (hpieces : PiecesOf whole pieces) (accs : List MinKAccumulator)
    (haccs : List.Forall₂
      (fun piece acc => ∃ workers chunkSize, Sketch env workers chunkSize piece (.ok acc))
      pieces accs) :
    ∀ workers chunkSize,
      (0 < workers → Ends (hashPipeline env minKPolicy workers chunkSize whole) ∧
        ∃ r, Sketch env workers chunkSize whole r) ∧
      ∀ r, Sketch env workers chunkSize whole r →
        ∃ acc glob, r = .ok acc ∧ (forM accs MinKPolicy.reduce).run MinKPolicy.init = .ok () glob ∧
          glob.hashes = acc.hashes ∧ glob.heap.size = acc.heap.size := by
  obtain ⟨glob, hrun, hglob⟩ :=
    hpieces.reduce (P := minKPolicy) minKPolicy_mergeable hdocs (by
      rintro piece part acc hread hpart ⟨workers, chunkSize, tr, s, hpiece, hleft⟩
      exact summarizes_of_left_ok minKPolicy_mergeable hreads hread hpart hpiece hleft) haccs
  intro workers chunkSize
  refine ⟨fun hworkers => ⟨ends_of_workers hworkers, exists_sketch hworkers chunkSize whole⟩, ?_⟩
  rintro r ⟨tr, s, hrun', hleft⟩
  cases r with
  | ok acc =>
    have hacc := summarizes_of_left_ok minKPolicy_mergeable hreads hwhole hdocs hrun' hleft
    refine ⟨acc, glob, rfl, hrun, ?_, ?_⟩
    · rw [hacc.2.hashes_eq, hglob.2.hashes_eq]
    · rw [hacc.2.size_eq, hglob.2.size_eq]
  | error e =>
    have hsum := Run.summary minKPolicy_mergeable hreads hwhole hdocs hrun' hleft
    simp only [hglob.1] at hsum
    obtain ⟨acc, hacc, -⟩ := hsum
    cases hacc

/-- Each of the two lines in a file of its own. -/
theorem sketch_of_two_lines :
    let env := Env.plain (Simdjson.ofLines parseEmpty)
    ∃ acc acc', Sketch env 1 1 (oneLine [0x5b, 0x5d]) (.ok acc) ∧
      Sketch env 1 1 (oneLine [0x7b, 0x7d]) (.ok acc') ∧
      ∀ workers chunkSize,
        (0 < workers → Ends (hashPipeline env minKPolicy workers chunkSize twoLines) ∧
          ∃ r, Sketch env workers chunkSize twoLines r) ∧
        ∀ r, Sketch env workers chunkSize twoLines r →
          ∃ whole glob, r = .ok whole ∧
            (forM [acc, acc'] MinKPolicy.reduce).run MinKPolicy.init = .ok () glob ∧
            glob.hashes = whole.hashes ∧ glob.heap.size = whole.heap.size := by
  intro env
  have hreads : ReadsLines env.simd parseEmpty := Simdjson.ofLines_readsLines parseEmpty
  obtain ⟨acc, hacc⟩ : ∃ acc, Sketch env 1 1 (oneLine [0x5b, 0x5d]) (.ok acc) :=
    exists_sketch_ok Nat.one_pos hreads (by decide) lineDocuments_array rfl
  obtain ⟨acc', hacc'⟩ : ∃ acc, Sketch env 1 1 (oneLine [0x7b, 0x7d]) (.ok acc) :=
    exists_sketch_ok Nat.one_pos hreads (by decide) lineDocuments_object rfl
  exact ⟨acc, acc', hacc, hacc', sketch_of_pieces env parseEmpty hreads twoLines (by decide) _
    lineDocuments_twoLines _ piecesOf_twoLines [acc, acc']
    (.cons ⟨1, 1, hacc⟩ (.cons ⟨1, 1, hacc'⟩ .nil))⟩

/-! ## Copies of a file -/

/-- A buffer of whole lines, and another one behind it. -/
theorem LineDocuments.append_buffer {line rest : Bytes} {docs docs' : List Element}
    (h : LineDocuments parse (lines (line ++ [newline])) docs)
    (h' : LineDocuments parse (lines rest) docs') :
    LineDocuments parse (lines (line ++ [newline] ++ rest)) (docs ++ docs') := by
  rw [lines_append_newline, lines_nil] at h
  rw [List.append_assoc, List.singleton_append, lines_append_newline]
  obtain ⟨first, second, rfl, hfirst, hsecond⟩ := h.split
  -- the empty line behind the last newline has no document
  cases hsecond with
  | blank _ hrest =>
    cases hrest
    rw [List.append_nil]
    exact hfirst.append h'
  | document hblank => cases hblank

theorem LineDocuments.replicate {line : Bytes} {docs : List Element}
    (h : LineDocuments parse (lines (line ++ [newline])) docs) (n : ℕ) :
    LineDocuments parse (lines (List.replicate n (line ++ [newline])).flatten)
      (List.replicate n docs).flatten := by
  induction n with
  | zero => exact LineDocuments.empty
  | succ n ih =>
    rw [List.replicate_succ, List.replicate_succ, List.flatten_cons, List.flatten_cons]
    exact h.append_buffer ih

/-- The hashes of `n` copies of some documents. -/
theorem documentsEmission_replicate {docs : List Element}
    (h : (documentsEmission env docs).error = none) (n : ℕ) :
    (documentsEmission env (List.replicate n docs).flatten).error = none ∧
      ((documentsEmission env (List.replicate n docs).flatten).hashes : Multiset U128) =
        n • ((documentsEmission env docs).hashes : Multiset U128) := by
  have hquiet : ∀ part ∈ List.replicate n docs, (documentsEmission env part).error = none := by
    intro part hpart
    rwa [List.eq_of_mem_replicate hpart]
  refine ⟨documentsEmission_flatten_error.mpr hquiet, ?_⟩
  rw [documentsEmission_flatten_hashes hquiet, List.map_replicate, ← Mergeable.sum_map_coe,
    List.map_replicate, List.sum_replicate]

/-- **Repeating a file.**  `n` copies of a file of one document a line, one after another, have `n`
times its fingerprint, modulo the prime; the sketch does not see the repetition.  The calls for the
copies come to their end under every interleaving if they have a worker. -/
theorem results_of_copies (env : Env) (parse : Bytes → Option Element)
    (hreads : ReadsLines env.simd parse) (file copies : File) (hfile : file.Readable)
    (hcopies : copies.Readable) (docs : List Element)
    (hdocs : LineDocuments parse (lines file.content) docs) (line : Bytes)
    (hend : file.content = line ++ [newline]) (n : ℕ) (hn : 0 < n)
    (hcontent : copies.content = (List.replicate n file.content).flatten) :
    (∀ M, FingerprintOf env file M → ∀ workers chunkSize p,
      (0 < workers → Ends (hashPipeline env fingerprintPolicy workers chunkSize copies) ∧
        ∃ r, Fingerprint env workers chunkSize [copies] p r) ∧
      ∀ r, Fingerprint env workers chunkSize [copies] p r →
        ∃ p', r = .ok () p' ∧ p'.M.toNat = n * M.toNat % primeNat) ∧
    ∀ acc workers chunkSize, Sketch env workers chunkSize file (.ok acc) →
      ∀ workers' chunkSize',
        (0 < workers' → Ends (hashPipeline env minKPolicy workers' chunkSize' copies) ∧
          ∃ r, Sketch env workers' chunkSize' copies r) ∧
        ∀ r, Sketch env workers' chunkSize' copies r →
          ∃ acc', r = .ok acc' ∧ acc'.hashes = acc.hashes ∧ acc'.heap.size = acc.heap.size := by
  have hmany : LineDocuments parse (lines copies.content) (List.replicate n docs).flatten := by
    rw [hend] at hdocs hcontent
    rw [hcontent]
    exact hdocs.replicate n
  constructor
  · rintro M ⟨workers', chunkSize', q, q', h, rfl⟩ workers chunkSize p
    refine ⟨fun hworkers => ⟨ends_of_workers hworkers, exists_fingerprint hworkers _ _ p⟩, ?_⟩
    intro r h'
    obtain ⟨hquiet, hsum⟩ := h.single hreads hfile hdocs
    obtain ⟨hquiet', hhashes⟩ := documentsEmission_replicate hquiet n
    have hsingle := h'.single hreads hcopies hmany
    cases r with
    | ok u p' =>
      refine ⟨p', rfl, ?_⟩
      have hM : p'.M.toNat = _ := hsingle.2
      rw [hM, hhashes, Multiset.map_nsmul, Multiset.sum_nsmul, smul_eq_mul,
        show q'.M.toNat = _ from hsum, Nat.mul_mod_mod]
    | error e p' => exact absurd hquiet' hsingle
  · rintro acc workers chunkSize ⟨tr, s, hrun, hleft⟩ workers' chunkSize'
    refine ⟨fun hworkers => ⟨ends_of_workers hworkers, exists_sketch hworkers _ copies⟩, ?_⟩
    rintro r ⟨tr', s', hrun', hleft'⟩
    obtain ⟨hquiet, hsketch⟩ :=
      summarizes_of_left_ok minKPolicy_mergeable hreads hfile hdocs hrun hleft
    obtain ⟨hquiet', hhashes⟩ := documentsEmission_replicate hquiet n
    have hsummary := Run.summary minKPolicy_mergeable hreads hcopies hmany hrun' hleft'
    simp only [hquiet'] at hsummary
    obtain ⟨acc', rfl, hsketch'⟩ := hsummary
    -- the copies have the same distinct hashes
    rw [hhashes] at hsketch'
    refine ⟨acc', rfl, ?_, ?_⟩
    · rw [hsketch'.hashes_eq, hsketch.hashes_eq, Multiset.toFinset_nsmul _ n hn.ne']
    · rw [hsketch'.size_eq, hsketch.size_eq, Multiset.toFinset_nsmul _ n hn.ne']

/-- Two copies of a file of one line. -/
theorem results_of_two_copies :
    let env := Env.plain (Simdjson.ofLines parseEmpty)
    let copies : File :=
      ⟨"copies.json", [0x5b, 0x5d, 0x0a, 0x5b, 0x5d, 0x0a], some 4, true, true, none⟩
    (∃ M, FingerprintOf env (oneLine [0x5b, 0x5d]) M ∧
      ∃ p', Fingerprint env 1 1 [copies] ⟨0, []⟩ (.ok () p') ∧
        p'.M.toNat = 2 * M.toNat % primeNat) ∧
    ∃ acc acc', Sketch env 1 1 (oneLine [0x5b, 0x5d]) (.ok acc) ∧
      Sketch env 1 1 copies (.ok acc') ∧ acc'.hashes = acc.hashes := by
  intro env copies
  have hreads : ReadsLines env.simd parseEmpty := Simdjson.ofLines_readsLines parseEmpty
  have h := results_of_copies env parseEmpty hreads (oneLine [0x5b, 0x5d]) copies (by decide)
    (by decide) _ lineDocuments_array [0x5b, 0x5d] rfl 2 Nat.two_pos rfl
  obtain ⟨M, hM⟩ := exists_fingerprintOf hreads (by decide) lineDocuments_array rfl
  obtain ⟨acc, hacc⟩ : ∃ acc, Sketch env 1 1 (oneLine [0x5b, 0x5d]) (.ok acc) :=
    exists_sketch_ok Nat.one_pos hreads (by decide) lineDocuments_array rfl
  obtain ⟨hends, hresults⟩ := h.1 M hM 1 1 ⟨0, []⟩
  obtain ⟨r, hr⟩ := (hends Nat.one_pos).2
  obtain ⟨p', rfl, hp'⟩ := hresults r hr
  obtain ⟨hends', hresults'⟩ := h.2 acc 1 1 hacc 1 1
  obtain ⟨r', hr'⟩ := (hends' Nat.one_pos).2
  obtain ⟨acc', rfl, hhashes, -⟩ := hresults' r' hr'
  exact ⟨⟨M, hM, p', hr, hp'⟩, acc, acc', hacc, hr', hhashes⟩

end Results

end Dataprint
