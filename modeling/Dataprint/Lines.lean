import Dataprint.Chunk

/-!
# Files of One Document a Line

A file of records has one JSON document on each line that is not blank.  What the
development relies on is that `iterate_many` reads such a buffer line by line
(`ReadsLines`).  Cutting the file after newlines then cuts the sequence of its documents
(`LineDocuments.pieces`), because no line is in two pieces.

`Simdjson.ofLines` is a parser that does read line by line, for examples.
-/

namespace Dataprint

/-- The lines of a buffer, the text behind the last newline included. -/
def lines (buffer : Bytes) : List Bytes := buffer.splitOn newline

/-- Only JSON white space. -/
def isBlank (line : Bytes) : Bool :=
  line.all fun b => b == 0x20 || b == 0x09 || b == 0x0a || b == 0x0d

/-- An object or an array. -/
def Element.isContainer : Element → Bool
  | .object _ _ => true
  | .array _ _ => true
  | .scalar _ => false

/-- `LineDocuments parse ls docs`: each line is blank or one complete document, and `docs` are the
documents in order. -/
inductive LineDocuments (parse : Bytes → Option Element) : List Bytes → List Element → Prop where
  | nil : LineDocuments parse [] []
  | blank {line : Bytes} {ls : List Bytes} {docs : List Element} : isBlank line = true →
      LineDocuments parse ls docs → LineDocuments parse (line :: ls) docs
  | document {line : Bytes} {doc : Element} {ls : List Bytes} {docs : List Element} :
      isBlank line = false → parse line = some doc → doc.isContainer = true →
      LineDocuments parse ls docs → LineDocuments parse (line :: ls) (doc :: docs)

/-- **What is assumed of simdjson**: on a buffer of whole lines, `iterate_many` yields the documents
of the lines in order. -/
def ReadsLines (simd : Simdjson) (parse : Bytes → Option Element) : Prop :=
  ∀ buffer docs, LineDocuments parse (lines buffer) docs →
    simd.iterateMany buffer = .ok (docs.map .ok)

theorem lines_append_newline (line rest : Bytes) :
    lines (line ++ newline :: rest) = lines line ++ lines rest :=
  List.splitOn_append_cons_self _ _

@[simp] theorem lines_nil : lines [] = [[]] := List.splitOn_nil newline

namespace LineDocuments

variable {parse : Bytes → Option Element}

theorem append {ls ls' : List Bytes} {docs docs' : List Element} (h : LineDocuments parse ls docs)
    (h' : LineDocuments parse ls' docs') : LineDocuments parse (ls ++ ls') (docs ++ docs') := by
  induction h with
  | nil => exact h'
  | blank hblank _ ih => exact .blank hblank ih
  | document hblank hparse hcont _ ih => exact .document hblank hparse hcont ih

/-- The documents of the first lines, and those of the others. -/
theorem split {ls ls' : List Bytes} {docs : List Element}
    (h : LineDocuments parse (ls ++ ls') docs) :
    ∃ first second, docs = first ++ second ∧ LineDocuments parse ls first ∧
      LineDocuments parse ls' second := by
  induction ls generalizing docs with
  | nil => exact ⟨[], docs, rfl, .nil, h⟩
  | cons line ls ih =>
    cases h with
    | blank hblank hrest =>
      obtain ⟨first, second, rfl, hfirst, hsecond⟩ := ih hrest
      exact ⟨first, second, rfl, .blank hblank hfirst, hsecond⟩
    | document hblank hparse hcont hrest =>
      obtain ⟨first, second, rfl, hfirst, hsecond⟩ := ih hrest
      exact ⟨_ :: first, second, rfl, .document hblank hparse hcont hfirst, hsecond⟩

/-- The document of the first line, if it has one, and those of the others. -/
theorem split_cons {line : Bytes} {ls : List Bytes} {docs : List Element}
    (h : LineDocuments parse (line :: ls) docs) :
    ∃ first rest, docs = first ++ rest ∧ LineDocuments parse [line] first ∧
      LineDocuments parse ls rest := by
  rw [← List.singleton_append] at h
  exact h.split

/-- **Reordering the lines reorders the documents.** -/
theorem perm {ls ls' : List Bytes} {docs : List Element} (hperm : ls.Perm ls')
    (h : LineDocuments parse ls docs) :
    ∃ docs', docs.Perm docs' ∧ LineDocuments parse ls' docs' := by
  induction hperm generalizing docs with
  | nil => exact ⟨docs, .refl docs, h⟩
  | cons line _ ih =>
    obtain ⟨first, rest, rfl, hfirst, hrest⟩ := h.split_cons
    obtain ⟨rest', hperm', hrest'⟩ := ih hrest
    exact ⟨first ++ rest', hperm'.append_left first, hfirst.append hrest'⟩
  | swap line line' ls =>
    obtain ⟨first, rest, rfl, hfirst, hrest⟩ := h.split_cons
    obtain ⟨second, rest, rfl, hsecond, hrest⟩ := hrest.split_cons
    -- each line keeps its own documents, of which there is at most one
    refine ⟨second ++ (first ++ rest), ?_, hsecond.append (hfirst.append hrest)⟩
    rw [← List.append_assoc, ← List.append_assoc]
    exact List.perm_append_comm.append_right rest
  | trans _ _ ih₁ ih₂ =>
    obtain ⟨docs₁, hperm₁, h₁⟩ := ih₁ h
    obtain ⟨docs₂, hperm₂, h₂⟩ := ih₂ h₁
    exact ⟨docs₂, hperm₁.trans hperm₂, h₂⟩

/-- The empty line at the end of a buffer. -/
theorem empty : LineDocuments parse [[]] [] := .blank rfl .nil

/-- **Cutting after newlines cuts the sequence of documents.** -/
theorem pieces {ps : List Bytes} (hcut : CutAtNewlines ps) {docs : List Element}
    (h : LineDocuments parse (lines ps.flatten) docs) :
    ∃ parts, List.Forall₂ (fun piece part => LineDocuments parse (lines piece) part) ps parts ∧
      parts.flatten = docs := by
  induction hcut generalizing docs with
  | nil =>
    rw [List.flatten_nil, lines_nil] at h
    cases h with
    | blank _ hrest => cases hrest; exact ⟨[], .nil, rfl⟩
    | document hblank => cases hblank
  | last piece => exact ⟨[docs], .cons (by simpa using h) .nil, by simp⟩
  | cons line hcut ih =>
    rw [List.flatten_cons, List.append_assoc, List.singleton_append, lines_append_newline] at h
    obtain ⟨first, second, rfl, hfirst, hsecond⟩ := h.split
    obtain ⟨parts, hparts, hflat⟩ := ih hsecond
    refine ⟨first :: parts, .cons ?_ hparts, by rw [List.flatten_cons, hflat]⟩
    -- the piece has one more line, the empty one behind its newline
    rw [lines_append_newline, lines_nil]
    simpa using hfirst.append empty

end LineDocuments

/-! ## A parser for examples -/

/-- What a line yields. -/
def readLine (parse : Bytes → Option Element) (line : Bytes) : Option Document :=
  if isBlank line then
    none
  else
    match parse line with
    | some doc => some (.ok doc)
    | none => some (.error .tapeError)

/-- A parser that takes the documents of a buffer from its lines, and has no getters. -/
def Simdjson.ofLines (parse : Bytes → Option Element) : Simdjson where
  getString _ := .error .incorrectType
  getNumber _ := .error .incorrectType
  getBool _ := .error .incorrectType
  iterateMany buffer := .ok ((lines buffer).filterMap (readLine parse))
  unsetStream _ := []

theorem Simdjson.ofLines_readsLines (parse : Bytes → Option Element) :
    ReadsLines (Simdjson.ofLines parse) parse := by
  intro buffer docs h
  simp only [ofLines]
  congr 1
  generalize lines buffer = ls at h ⊢
  induction h with
  | nil => rfl
  | blank hblank _ ih => simpa [readLine, hblank] using ih
  | document hblank hparse _ _ ih => simpa [readLine, hblank, hparse] using ih

/-- The documents `[]` and `\x7b\x7d`. -/
def parseEmpty (line : Bytes) : Option Element :=
  if line = [0x5b, 0x5d] then some (.array [] none)
  else if line = [0x7b, 0x7d] then some (.object [] none)
  else none

end Dataprint
