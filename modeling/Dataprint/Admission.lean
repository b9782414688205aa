import Dataprint.Compare

/-!
# What the Command Line Admits

The validator of `src/main.cpp` turns empty files away before `compare` sees them.  It looks at the
length of a file only, and a file of white space has no document either.

- `similarity_den_eq_zero_iff` — the ratio of two sketches has no denominator exactly if both are
  empty, and no other ratio leaves the unit interval;
- `Sketch.hashes_eq_empty_iff` — a sketch is empty exactly if the parser finds no document;
- `compareCommand_defined_iff` — of which admitted files the ratio is a number.
-/

namespace Dataprint

open Foundations Pipeline

/-! ## The validator -/

/-- `non_empty_file`: what is wrong with a file.  The empty text is for a valid one. -/
def nonEmptyFile (file : File) : String :=
  if file.fd = none then "cannot open file: " ++ file.name
  else if file.content = [] then "file is empty: " ++ file.name
  else ""

/-- The subcommand `compare`: both files pass the validator, and then they are compared. -/
structure CompareCommand (env : Env) (workers chunkSize : ℕ) (file1 file2 : File)
    (r : Except Exn Ratio) : Prop where
  admitted1 : nonEmptyFile file1 = ""
  admitted2 : nonEmptyFile file2 = ""
  compare : Compare env workers chunkSize file1 file2 r

/-- A file is valid if it can be opened and has a byte. -/
theorem nonEmptyFile_eq_empty_iff (file : File) :
    nonEmptyFile file = "" ↔ file.fd ≠ none ∧ file.content ≠ [] := by
  unfold nonEmptyFile
  split
  case isTrue h => simp [h]
  case isFalse h =>
    split
    case isTrue hempty => simp [hempty]
    case isFalse hempty => simp [h, hempty]

/-! ## The denominator -/

section Sets

variable {values1 values2 : Finset U128} {h1 h2 : MinKAccumulator}

/-- **No denominator**: the ratio divides by zero exactly if neither sketch has a hash. -/
theorem similarity_den_eq_zero_iff (hs1 : IsSketch K values1 h1) (hs2 : IsSketch K values2 h2) :
    (similarity h1 h2).den = 0 ↔ h1.hashes = ∅ ∧ h2.hashes = ∅ := by
  rw [similarity_eq hs1 hs2, ← Finset.union_eq_empty]
  split
  case isTrue hexact =>
    rw [Nat.cast_eq_zero, Finset.card_eq_zero]
  case isFalse hcounted =>
    -- `K` is not zero, and the sketches have `K` hashes between them
    have hpos := K_pos
    have hne : h1.hashes ∪ h2.hashes ≠ ∅ := by
      intro hempty
      obtain ⟨hempty1, hempty2⟩ := Finset.union_eq_empty.mp hempty
      rw [hempty1, hempty2, Finset.card_empty] at hcounted
      omega
    have hK : (K : ℚ) ≠ 0 := Nat.cast_ne_zero.mpr hpos.ne'
    exact iff_of_false hK hne

/-- No more hashes are shared than the denominator counts. -/
theorem similarity_num_le_den (hs1 : IsSketch K values1 h1) (hs2 : IsSketch K values2 h2) :
    (similarity h1 h2).num ≤ (similarity h1 h2).den := by
  rw [similarity_eq hs1 hs2]
  split
  case isTrue hexact =>
    have hle : (h1.hashes ∩ h2.hashes).card ≤ (h1.hashes ∪ h2.hashes).card :=
      Finset.card_le_card (Finset.inter_subset_left.trans Finset.subset_union_left)
    exact Nat.cast_le.mpr hle
  case isFalse hcounted =>
    have hle : (h1.hashes ∩ h2.hashes).card ≤ K :=
      (Finset.card_le_card Finset.inter_subset_left).trans hs1.card_hashes_le
    exact Nat.cast_le.mpr hle

theorem similarity_num_nonneg (hs1 : IsSketch K values1 h1) (hs2 : IsSketch K values2 h2) :
    0 ≤ (similarity h1 h2).num := by
  rw [similarity_eq hs1 hs2]
  split
  case isTrue hexact => exact Nat.cast_nonneg _
  case isFalse hcounted => exact Nat.cast_nonneg _

/-- The ratio of two sketches is in the unit interval. -/
theorem similarity_value_mem (hs1 : IsSketch K values1 h1) (hs2 : IsSketch K values2 h2) :
    0 ≤ (similarity h1 h2).value ∧ (similarity h1 h2).value ≤ 1 := by
  have hnum := similarity_num_nonneg hs1 hs2
  have hle := similarity_num_le_den hs1 hs2
  have hden := hnum.trans hle
  exact ⟨div_nonneg hnum hden, div_le_one_of_le₀ hle hden⟩

end Sets

/-! ## Files without documents -/

section Files

variable {env : Env} {workers chunkSize : ℕ} {file file1 file2 : File}

/-- **Empty sketches**: a file that was sketched has no hash exactly if the parser finds no document
in it. -/
theorem Sketch.hashes_eq_empty_iff {acc : MinKAccumulator}
    (h : Sketch env workers chunkSize file (.ok acc)) :
    acc.hashes = ∅ ↔ streamedFile env.simd chunkSize file = [] := by
  constructor
  · intro hempty
    by_contra hdocs
    have hemitted := Finset.card_pos.mpr (h.nonempty hdocs)
    have hcard : min K (emittedHashes env chunkSize file).card = 0 := by
      rw [← card_smallest, ← h.hashes_eq, hempty, Finset.card_empty]
    have hpos := K_pos
    omega
  · intro hdocs
    have hemitted : emittedHashes env chunkSize file = ∅ := by
      rw [emittedHashes, hdocs]
      rfl
    rw [h.hashes_eq, hemitted, ← Finset.card_eq_zero, card_smallest, Finset.card_empty,
      Nat.min_zero]

/-- Where each line is blank or a document, a file without documents has blank lines only. -/
theorem LineDocuments.eq_nil_iff {parse : Bytes → Option Element} {ls : List Bytes}
    {docs : List Element} (h : LineDocuments parse ls docs) :
    docs = [] ↔ ∀ line ∈ ls, isBlank line = true := by
  induction h with
  | nil => simp
  | blank hblank _ ih => simp [hblank, ih]
  | document hblank _ _ _ ih => simp [hblank]

/-- The parser finds no document in a file exactly if all its lines are blank. -/
theorem streamedFile_eq_nil_iff {parse : Bytes → Option Element} {docs : List Element}
    {simd : Simdjson} (hreads : ReadsLines simd parse)
    (hdocs : LineDocuments parse (lines file.content) docs) :
    streamedFile simd chunkSize file = [] ↔ ∀ line ∈ lines file.content, isBlank line = true := by
  rw [streamedFile_eq hreads hdocs, List.map_eq_nil_iff, hdocs.eq_nil_iff]

/-- **When `compare` divides by zero.**  Of two admitted files that are sketched, whatever they
contain, the ratio has a denominator and lies in the unit interval if and only if the parser finds a
document in one of them. -/
theorem compareCommand_defined_iff {r : Ratio}
    (h : CompareCommand env workers chunkSize file1 file2 (.ok r)) :
    (r.den ≠ 0 ∧ 0 ≤ r.value ∧ r.value ≤ 1) ↔
      streamedFile env.simd chunkSize file1 ≠ [] ∨ streamedFile env.simd chunkSize file2 ≠ [] := by
  cases h.compare with
  | done hs1 hs2 =>
    have hrange := similarity_value_mem hs1.isSketch hs2.isSketch
    rw [and_iff_left hrange, ne_eq, similarity_den_eq_zero_iff hs1.isSketch hs2.isSketch,
      hs1.hashes_eq_empty_iff, hs2.hashes_eq_empty_iff, not_and_or]

end Files

/-- Two lines each: the ratio is a number. -/
theorem compareCommand_defined_two_lines :
    ∃ r, CompareCommand Env.strings 1 1 (stringFile [0, 1]) (stringFile [1, 2]) (.ok r) ∧
      r.den ≠ 0 ∧ 0 ≤ r.value ∧ r.value ≤ 1 := by
  obtain ⟨r, hr⟩ := exists_compare_strings [0, 1] [1, 2]
  have hcommand : CompareCommand Env.strings 1 1 (stringFile [0, 1]) (stringFile [1, 2]) (.ok r) :=
    ⟨by decide, by decide, hr⟩
  have hdocs : streamedFile Env.strings.simd 1 (stringFile [0, 1]) ≠ [] := by
    rw [streamedFile_strings]
    simp
  exact ⟨r, hcommand, (compareCommand_defined_iff hcommand).mpr (.inl hdocs)⟩

/-- A space and a newline. -/
def blankFile : File where
  name := "blank.json"
  content := [0x20, newline]
  fd := some 3
  statOk := true
  mapOk := true
  loadError := none

/-- **Zero by zero.**  Two files of white space pass the validator, are sketched without an error,
and are at ratio `0 / 0`. -/
theorem compareCommand_divides_by_zero :
    nonEmptyFile blankFile = "" ∧
      ∃ r, CompareCommand Env.strings 1 1 blankFile blankFile (.ok r) ∧ r.num = 0 ∧ r.den = 0 := by
  have hdocs : LineDocuments parseStrings (lines blankFile.content) [] :=
    .blank rfl (.blank rfl .nil)
  have hsketch : ∃ acc, Sketch Env.strings 1 1 blankFile (.ok acc) :=
    exists_sketch_ok Nat.one_pos Env.strings_readsLines (by decide) hdocs rfl
  obtain ⟨acc, hs⟩ := hsketch
  have hempty : acc.hashes = ∅ :=
    hs.hashes_eq_empty_iff.mpr (streamedFile_eq Env.strings_readsLines hdocs 1)
  have hden := (similarity_den_eq_zero_iff hs.isSketch hs.isSketch).mpr ⟨hempty, hempty⟩
  have hle := similarity_num_le_den hs.isSketch hs.isSketch
  have hnonneg := similarity_num_nonneg hs.isSketch hs.isSketch
  refine ⟨by decide, _, ⟨by decide, by decide, .done hs hs⟩, ?_, hden⟩
  rw [hden] at hle
  exact le_antisymm hle hnonneg

end Dataprint
