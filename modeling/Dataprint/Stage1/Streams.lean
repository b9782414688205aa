import Dataprint.Lines
import Dataprint.Stage1.Parser

/-!
# Streams of Documents

A file of one document a line reaches stage 1 in pieces: `chunk` cuts it after newlines, and
simdjson cuts what it gets into batches, wherever that is.

- `calls_return` — no call on a parser stores or reads outside of its buffers;
- `pieces_accepted` — stage 1 finds in the pieces of a file what it finds in the file;
- `cut_keeps_documents` — of a text that is cut anywhere it keeps the complete documents;
- `kernels_agree` — the kernels give the same answers.
-/

namespace Dataprint.Stage1

open Foundations DomParser

variable {K : Kernel}

/-! ## Calls -/

/-- A call on a parser. -/
inductive Call where
  | setCapacity (allocate : (n : ℕ) → Option (Vector U32 n)) (capacity : ℕ)
  | stage1 (buf : Bytes) (mode : Stage1Mode)

/-- The result of a call and the parser after it. -/
def Call.run (K : Kernel) (parser : DomParser) : Call → Option (Except ErrorCode Unit × DomParser)
  | .setCapacity allocate capacity => some (parser.setCapacity allocate capacity)
  | .stage1 buf mode => parser.stage1 K buf mode

/-- What a scan says of a text that ends outside of strings. -/
structure Scans (K : Kernel) (text ts : Bytes) : Prop where
  bytes : structuralBytes K .start text = ts
  closed : (ScanState.start.after K text).inString = false
  noControl : hasControl K .start text = false

namespace Scans

variable {text text' ts ts' line : Bytes}

theorem isWhitespace_newline : isWhitespace newline = true := rfl

/-- A newline starts anew. -/
theorem next_newline (hK : K.Lawful) {s : ScanState} (hs : s.inString = false) :
    s.next K newline = .start := by
  obtain ⟨-, hscalar⟩ := hK.not_op_of_whitespace isWhitespace_newline
  rw [ScanState.next, hs, ScanState.isQuote_of_isWhitespace isWhitespace_newline, hscalar,
    show (newline == backslash) = false from rfl]
  rfl

/-- **Two texts with a newline between them.** -/
theorem append_newline (hK : K.Lawful) (h : Scans K text ts) (h' : Scans K text' ts') :
    Scans K (text ++ newline :: text') (ts ++ ts') := by
  have hnext := next_newline hK h.closed
  constructor
  · rw [structuralBytes_append, structuralBytes,
      ScanState.isStructural_of_isWhitespace hK isWhitespace_newline, hnext, h.bytes, h'.bytes]
    rfl
  · rw [ScanState.after_append, ScanState.after_cons, hnext, h'.closed]
  · rw [hasControl_append, hasControl,
      ScanState.isControl_of_isWhitespace isWhitespace_newline h.closed, hnext, h.noControl,
      h'.noControl]
    rfl

/-- White space has nothing in it. -/
theorem blank (hK : K.Lawful) (hblank : isBlank line = true) : Scans K line [] := by
  -- the state may change in other ways, but it stays outside of strings
  have hspaces : ∀ s : ScanState, s.inString = false →
      structuralBytes K s line = [] ∧ (s.after K line).inString = false ∧
        hasControl K s line = false := by
    induction line with
    | nil => exact fun s hs => ⟨rfl, hs, rfl⟩
    | cons c line ih =>
      intro s hs
      rw [isBlank, List.all_cons, Bool.and_eq_true] at hblank
      have hwhite : isWhitespace c = true := hblank.1
      have hnext : (s.next K c).inString = false := by
        rw [ScanState.inString_next_of_isWhitespace hwhite, hs]
      obtain ⟨hbytes, hclosed, hcontrol⟩ := ih hblank.2 (s.next K c) hnext
      refine ⟨?_, hclosed, ?_⟩
      · rw [structuralBytes, ScanState.isStructural_of_isWhitespace hK hwhite,
          if_neg Bool.false_ne_true, hbytes]
      · rw [hasControl, ScanState.isControl_of_isWhitespace hwhite hs, hcontrol]
        rfl
  obtain ⟨hbytes, hclosed, hcontrol⟩ := hspaces .start rfl
  exact ⟨hbytes, hclosed, hcontrol⟩

end Scans

/-- A document of a line is scanned as what it is. -/
def ScansLines (K : Kernel) (parse : Bytes → Option Element) : Prop :=
  ∀ line doc, parse line = some doc → Complete doc ∧ Scans K line (tokens doc)

section Lines

variable {parse : Bytes → Option Element} {docs : List Element}

/-- **Lines are scanned one by one.** -/
theorem scans_of_lineDocuments (hK : K.Lawful) (hparse : ScansLines K parse) {ls : List Bytes}
    (h : LineDocuments parse ls docs) :
    (∀ doc ∈ docs, Complete doc) ∧ Scans K ([newline].intercalate ls) (docs.flatMap tokens) := by
  have hcons : ∀ (line : Bytes) (ls : List Bytes) (ts ts' : Bytes), Scans K line ts →
      Scans K ([newline].intercalate ls) ts' → (ls = [] → ts' = []) →
      Scans K ([newline].intercalate (line :: ls)) (ts ++ ts') := by
    intro line ls ts ts' hline hrest hlast
    cases ls with
    | nil => rwa [List.intercalate_singleton, hlast rfl, List.append_nil]
    | cons line' ls =>
      rw [List.intercalate_cons_cons, List.append_assoc]
      exact hline.append_newline hK hrest
  have hnone : ∀ {ls : List Bytes} {docs : List Element}, LineDocuments parse ls docs → ls = [] →
      docs.flatMap tokens = [] := by
    rintro ls docs h rfl
    cases h
    rfl
  -- on the lines
  induction h with
  | nil => exact ⟨List.forall_mem_nil _, rfl, rfl, rfl⟩
  | blank hblank hrest ih =>
    exact ⟨ih.1, hcons _ _ [] _ (.blank hK hblank) ih.2 (hnone hrest)⟩
  | document _ hdoc _ hrest ih =>
    obtain ⟨hcomplete, hscans⟩ := hparse _ _ hdoc
    refine ⟨List.forall_mem_cons.mpr ⟨hcomplete, ih.1⟩, ?_⟩
    rw [List.flatMap_cons]
    exact hcons _ _ _ _ hscans ih.2 (hnone hrest)

theorem scans_of_lines (hK : K.Lawful) (hparse : ScansLines K parse) {buffer : Bytes}
    (h : LineDocuments parse (lines buffer) docs) :
    (∀ doc ∈ docs, Complete doc) ∧ Scans K buffer (docs.flatMap tokens) := by
  have hscans := scans_of_lineDocuments hK hparse h
  rwa [lines, List.intercalate_splitOn] at hscans

end Lines

/-! ## Pieces -/

section Pieces

variable {docs : List Element} {text : Bytes} {parser : DomParser}

/-- All structurals of the documents, and no others. -/
def Holds (K : Kernel) (text : Bytes) (docs : List Element) (parser : DomParser) : Prop :=
  parser.nStructuralIndexes.toNat = (docs.flatMap tokens).length ∧
    parser.structuralIndexes.take (docs.flatMap tokens).length =
      ((structurals K .start 0 text).take (docs.flatMap tokens).length).map (BitVec.ofNat 32)

/-- **A part of a stream**, whichever part it is. -/
theorem stage1_of_part (hK : K.Lawful) (h : parser.Valid) {buf rest : Bytes}
    (hcapacity : buf.length ≤ parser.capacity) (hlen : buf.length < 2 ^ 31) {mode : Stage1Mode}
    (hmode : isStreaming mode = true) (hne : scanned buf mode ≠ [])
    (hpart : PartOf K (scanned buf mode) docs rest) :
    ∃ error parser', parser.stage1 K buf mode =
        some (if docs = [] then .error error else .ok (), parser') ∧ parser'.Valid ∧
      (error = .capacity ∨ error = .empty) ∧
      (structurals K .start 0 (scanned buf mode) = [] → error = .empty) ∧
      (docs ≠ [] → Holds K (scanned buf mode) docs parser') := by
  have hvalid : ∀ p, SameArray { parser with buf := buf } p → p.Valid :=
    fun p hsame => hsame.valid ⟨h.capacity_le, h.size⟩
  have hle := hpart.length_le
  cases mode with
  | regular => cases hmode
  | streamingPartial =>
    obtain ⟨p, hstage, hsame, hholds⟩ := stage1_streamingPartial hK h hcapacity hlen rfl hne hpart
    refine ⟨_, p, hstage, hvalid p hsame, ?_, fun hnone => if_pos hnone, fun hdocs => ?_⟩
    · unfold partialError
      split_ifs
      · exact .inr rfl
      · exact .inl rfl
      · exact .inr rfl
    · obtain ⟨hn, hindexes⟩ := hholds hdocs
      refine ⟨hn, ?_⟩
      rw [List.map_take]
      exact take_of_take_eq_append hindexes (by omega) (by rwa [List.length_map])
  | streamingFinal =>
    obtain ⟨p, hstage, hsame, hn, hindexes⟩ :=
      stage1_streamingFinal hK h hcapacity hlen rfl hne hpart
    refine ⟨.empty, p, hstage, hvalid p hsame, .inr rfl, fun _ => rfl, fun _ => ⟨hn, ?_⟩⟩
    have hfirst := take_of_take_eq_append hindexes (Nat.le_succ _)
      (by rw [List.length_map, List.length_take, Nat.min_eq_left hle])
    rwa [← List.map_take, List.take_take, Nat.min_self] at hfirst

/-- **A text of whole documents** is accepted with all of them, whatever the mode. -/
theorem stage1_of_scans (hK : K.Lawful) (h : parser.Valid)
    (hcapacity : text.length ≤ parser.capacity) (hlen : text.length < 2 ^ 31)
    (hutf8 : IsUtf8 text) (hdocs : ∀ doc ∈ docs, Complete doc)
    (hscans : Scans K text (docs.flatMap tokens)) (mode : Stage1Mode) :
    ∃ parser', parser.stage1 K text mode =
        some (if docs = [] then .error .empty else .ok (), parser') ∧ parser'.Valid ∧
      (docs ≠ [] → Holds K text docs parser') := by
  have hvalid : ∀ p, SameArray { parser with buf := text } p → p.Valid :=
    fun p hsame => hsame.valid ⟨h.capacity_le, h.size⟩
  by_cases hnil : text = []
  · subst hnil
    have hnone : docs = [] :=
      (flatMap_tokens_eq_nil_iff hdocs).mp (hscans.bytes.symm.trans rfl)
    rw [if_pos hnone, (@stage1_of_refused K parser [] mode).2.1 rfl]
    exact ⟨_, rfl, hvalid _ (.refl _), fun hne => absurd hnone hne⟩
  have hcount : (structurals K .start 0 text).length = (docs.flatMap tokens).length := by
    rw [← length_structuralBytes, hscans.bytes]
  have hempty : structurals K .start 0 text = [] ↔ docs = [] := by
    rw [← List.length_eq_zero_iff, hcount, List.length_eq_zero_iff, flatMap_tokens_eq_nil_iff hdocs]
  by_cases hmode : isStreaming mode = true
  · have htext : scanned text mode = text := by
      rw [scanned, trimPartialUtf8_of_isUtf8 hutf8, ite_self, List.take_length]
    have hpart : PartOf K (scanned text mode) docs [] := by
      rw [htext]
      refine ⟨hdocs, .inl rfl, ?_, hscans.noControl, hutf8⟩
      rw [keptBytes, hscans.closed, if_neg Bool.false_ne_true, hscans.bytes, List.append_nil]
    obtain ⟨error, p, hstage, hp, -, hnone, hholds⟩ :=
      stage1_of_part hK h hcapacity hlen hmode (by rwa [htext]) hpart
    rw [htext] at hnone hholds
    refine ⟨p, ?_, hp, hholds⟩
    rw [hstage]
    split
    case isTrue hdocs' => rw [hnone (hempty.mpr hdocs')]
    case isFalse => rfl
  · obtain rfl : mode = .regular := by
      cases mode with
      | regular => rfl
      | streamingPartial => exact absurd rfl hmode
      | streamingFinal => exact absurd rfl hmode
    obtain ⟨p, hstage, hsame, hfound⟩ := @stage1_document K parser hK h text (by omega)
    have hresult : documentResult K parser.capacity text =
        if docs = [] then .error .empty else .ok () := by
      rw [documentResult, if_neg (Nat.not_lt.mpr hcapacity), if_neg hnil, hscans.closed,
        if_neg Bool.false_ne_true, hscans.noControl, if_neg Bool.false_ne_true, if_pos hutf8]
      simp only [hempty]
    rw [hresult] at hstage hfound
    refine ⟨p, hstage, hvalid p hsame, fun hne => ?_⟩
    have hp := hfound (if_neg hne)
    exact ⟨hp.count.trans hcount, hp.take_indexes hcount.ge⟩

/-- The pieces of a text are as well encoded as the text. -/
theorem isUtf8_pieces {pieces : List Bytes} (hcut : CutAtNewlines pieces)
    (h : IsUtf8 pieces.flatten) : ∀ piece ∈ pieces, IsUtf8 piece := by
  -- on the cuts: a newline is a character of its own
  induction hcut with
  | nil => exact List.forall_mem_nil _
  | last piece => simpa using h
  | cons line _ ih =>
    rw [List.flatten_cons, List.append_assoc, List.singleton_append,
      isUtf8_append_of_ascii (show newline.toNat < 0x80 by decide)] at h
    exact List.forall_mem_cons.mpr ⟨h.1, ih h.2⟩

/-- **Stage 1 reads a file in pieces**: of a file of one document a line that is cut after newlines
it accepts every piece, in every mode, with exactly the documents that are in it; and these are all
the documents of the file, in order. -/
theorem pieces_accepted (hK : K ∈ kernels) {parse : Bytes → Option Element}
    (hparse : ScansLines K parse) {pieces : List Bytes} (hcut : CutAtNewlines pieces)
    (hutf8 : IsUtf8 pieces.flatten) (hdocs : LineDocuments parse (lines pieces.flatten) docs)
    (h : parser.Valid) (hcapacity : ∀ piece ∈ pieces, piece.length ≤ parser.capacity)
    (hlen : ∀ piece ∈ pieces, piece.length < 2 ^ 31) (mode : Stage1Mode) :
    ∃ parts : List (List Element), parts.flatten = docs ∧
      structuralBytes K .start pieces.flatten = (parts.map (List.flatMap tokens)).flatten ∧
      List.Forall₂ (fun piece part => structuralBytes K .start piece = part.flatMap tokens ∧
        ∃ parser', parser.stage1 K piece mode =
            some (if part = [] then .error .empty else .ok (), parser') ∧ parser'.Valid ∧
          (part ≠ [] → Holds K piece part parser')) pieces parts := by
  have hlawful := lawful_of_mem hK
  obtain ⟨parts, hparts, hflat⟩ := hdocs.pieces hcut
  have hpieces := isUtf8_pieces hcut hutf8
  refine ⟨parts, hflat, ?_, ?_⟩
  · rw [(scans_of_lines hlawful hparse hdocs).2.bytes, ← hflat, List.flatMap_def,
      List.map_flatten, List.flatten_flatten, List.map_map]
    congr 1
  · rw [List.forall₂_iff_get] at hparts ⊢
    refine ⟨hparts.1, fun i hi hi' => ?_⟩
    obtain ⟨hcomplete, hscans⟩ := scans_of_lines hlawful hparse (hparts.2 i hi hi')
    have hmem : pieces.get ⟨i, hi⟩ ∈ pieces := List.get_mem _ _
    exact ⟨hscans.bytes, stage1_of_scans hlawful h (hcapacity _ hmem) (hlen _ hmem)
      (hpieces _ hmem) hcomplete hscans mode⟩

/-- A field with an array, in which there is a bracket in a string. -/
def recordLine : Bytes :=
  [0x7b, 0x22, 0x6b, 0x22, 0x3a, 0x5b, 0x22, 0x5d, 0x22, 0x2c, 0x31, 0x5d, 0x7d]

/-- The document of the line. -/
def recordDocument : Element :=
  .object [(.ok [0x6b], .array [.scalar (.ofText [0x22, 0x5d, 0x22]), .scalar (.ofText [0x31])]
    none)] none

def parseRecord (line : Bytes) : Option Element :=
  if line = recordLine then some recordDocument else none

theorem parseRecord_scansLines (hK : K ∈ kernels) : ScansLines K parseRecord := by
  intro line doc hline
  unfold parseRecord at hline
  split at hline
  case isTrue hrecord =>
    cases hline
    subst hrecord
    have hcomplete : Complete recordDocument := by
      refine .object (List.forall_mem_singleton.mpr (.array ?_))
      intro child hchild
      rcases List.mem_pair.mp hchild with rfl | rfl
      all_goals exact .scalar (by decide)
    refine ⟨hcomplete, ?_⟩
    rcases List.mem_pair.mp hK with rfl | rfl
    all_goals exact ⟨by decide, by decide, by decide⟩
  case isFalse => cases hline

/-- Two lines, one in each piece. -/
def recordPieces : List Bytes := [recordLine ++ [newline], recordLine]

theorem recordPieces_documents :
    LineDocuments parseRecord (lines recordPieces.flatten) [recordDocument, recordDocument] := by
  have hlines : lines recordPieces.flatten = [recordLine, recordLine] := by decide
  rw [hlines]
  exact .document rfl rfl rfl (.document rfl rfl rfl .nil)

theorem pieces_accepted_records :
    let parser := (DomParser.new.setCapacity zeros 64).2
    ∃ parts : List (List Element), parts.flatten = [recordDocument, recordDocument] ∧
      structuralBytes haswell .start recordPieces.flatten =
        (parts.map (List.flatMap tokens)).flatten ∧
      List.Forall₂ (fun piece part => structuralBytes haswell .start piece = part.flatMap tokens ∧
        ∃ parser', parser.stage1 haswell piece .regular =
            some (if part = [] then .error .empty else .ok (), parser') ∧ parser'.Valid ∧
          (part ≠ [] → Holds haswell piece part parser')) recordPieces parts :=
  pieces_accepted (by simp [kernels]) (parseRecord_scansLines (by simp [kernels]))
    (.cons recordLine (.last _)) (by decide) recordPieces_documents
    (setCapacity_valid zeros new_valid 64) (by decide) (by decide) .regular

/-! ## Cutting anywhere -/

theorem structuralBytes_isPrefix {cut : Bytes} (h : cut <+: text) (s : ScanState) :
    structuralBytes K s cut <+: structuralBytes K s text := by
  obtain ⟨rest, rfl⟩ := h
  rw [structuralBytes_append]
  exact List.prefix_append _ _

theorem keptBytes_isPrefix (K : Kernel) (text : Bytes) :
    keptBytes K text <+: structuralBytes K .start text := by
  unfold keptBytes
  split
  · exact List.dropLast_prefix _
  · exact List.prefix_rfl

/-- Documents that are cut off: the complete ones, and what is left of the next one. -/
theorem exists_docs_of_isPrefix {ts : Bytes} (h : ts <+: docs.flatMap tokens) :
    ∃ before after rest, docs = before ++ after ∧ ts = before.flatMap tokens ++ rest ∧
      (rest = [] ∨ ∃ doc others, after = doc :: others ∧ rest <+: tokens doc ∧ rest ≠ [] ∧
        rest ≠ tokens doc) := by
  induction docs generalizing ts with
  | nil => exact ⟨[], [], [], rfl, List.prefix_nil.mp h, .inl rfl⟩
  | cons doc docs ih =>
    rw [List.flatMap_cons] at h
    -- the first document is cut, or all of it is there
    rcases List.prefix_or_prefix_of_prefix h (List.prefix_append _ _) with hpart | ⟨ts', rfl⟩
    · by_cases hall : ts = tokens doc
      · exact ⟨[doc], docs, [], rfl, by simp [hall], .inl rfl⟩
      · by_cases hnil : ts = []
        · exact ⟨[], doc :: docs, [], rfl, hnil, .inl rfl⟩
        · exact ⟨[], doc :: docs, ts, rfl, rfl, .inr ⟨doc, docs, rfl, hpart, hnil, hall⟩⟩
    · obtain ⟨before, after, rest, rfl, rfl, hrest⟩ :=
        ih ((List.prefix_append_right_inj _).mp h)
      exact ⟨doc :: before, after, rest, rfl, by simp, hrest⟩

/-- **A text that is cut anywhere**, in a string or in a character, say, keeps its complete
documents, and nothing of the next one. -/
theorem cut_keeps_documents (hK : K ∈ kernels) {parse : Bytes → Option Element}
    (hparse : ScansLines K parse) (hutf8 : IsUtf8 text)
    (hdocs : LineDocuments parse (lines text) docs) (h : parser.Valid) {cut : Bytes}
    (hcut : cut <+: text) (hcapacity : cut.length ≤ parser.capacity)
    (hlen : cut.length < 2 ^ 31) {mode : Stage1Mode} (hmode : isStreaming mode = true)
    (hne : scanned cut mode ≠ []) :
    ∃ before after rest, docs = before ++ after ∧
      keptBytes K (scanned cut mode) = before.flatMap tokens ++ rest ∧
      (rest = [] ∨ ∃ doc others, after = doc :: others ∧ rest <+: tokens doc ∧ rest ≠ [] ∧
        rest ≠ tokens doc) ∧
      ∃ result parser', parser.stage1 K cut mode = some (result, parser') ∧ parser'.Valid ∧
        (before ≠ [] → result = .ok () ∧ Holds K (scanned cut mode) before parser') ∧
        (before = [] → result = .error .capacity ∨ result = .error .empty) := by
  have hlawful := lawful_of_mem hK
  obtain ⟨hcomplete, hscans⟩ := scans_of_lines hlawful hparse hdocs
  have hprefix : scanned cut mode <+: text := (scanned_isPrefix cut mode).trans hcut
  -- what is kept of the cut text is a beginning of what there is in the whole
  have hkept : keptBytes K (scanned cut mode) <+: docs.flatMap tokens := by
    rw [← hscans.bytes]
    exact (keptBytes_isPrefix K _).trans (structuralBytes_isPrefix hprefix _)
  obtain ⟨before, after, rest, rfl, hbytes, hrest⟩ := exists_docs_of_isPrefix hkept
  have hpart : PartOf K (scanned cut mode) before rest := by
    refine ⟨fun doc hdoc => hcomplete doc (List.mem_append_left _ hdoc), ?_, hbytes, ?_, ?_⟩
    · rcases hrest with hnil | ⟨doc, others, rfl, hdoc⟩
      · exact .inl hnil
      · exact .inr ⟨doc, hcomplete doc (by simp), hdoc⟩
    · obtain ⟨others, hsplit⟩ := hprefix
      have hcontrol := hscans.noControl
      rw [← hsplit, hasControl_append, Bool.or_eq_false_iff] at hcontrol
      exact hcontrol.1
    · rw [scanned, hmode, if_pos rfl]
      exact isUtf8_take_trimPartialUtf8 hcut hutf8
  obtain ⟨error, p, hstage, hp, herror, -, hholds⟩ :=
    stage1_of_part hlawful h hcapacity hlen hmode hne hpart
  refine ⟨before, after, rest, rfl, hbytes, hrest, _, p, hstage, hp, ?_, ?_⟩
  · exact fun hbefore => ⟨if_neg hbefore, hholds hbefore⟩
  · intro hbefore
    rw [if_pos hbefore]
    exact herror.imp (congrArg _) (congrArg _)

theorem cut_keeps_documents_records :
    let parser := (DomParser.new.setCapacity zeros 64).2
    let cut := recordPieces.flatten.take 21
    ∃ before after rest,
      [recordDocument, recordDocument] = before ++ after ∧
      keptBytes haswell (scanned cut .streamingPartial) = before.flatMap tokens ++ rest ∧
      (rest = [] ∨ ∃ doc others, after = doc :: others ∧ rest <+: tokens doc ∧ rest ≠ [] ∧
        rest ≠ tokens doc) ∧
      ∃ result parser', parser.stage1 haswell cut .streamingPartial = some (result, parser') ∧
        parser'.Valid ∧
        (before ≠ [] → result = .ok () ∧
          Holds haswell (scanned cut .streamingPartial) before parser') ∧
        (before = [] → result = .error .capacity ∨ result = .error .empty) :=
  cut_keeps_documents (by simp [kernels]) (parseRecord_scansLines (by simp [kernels]))
    (by decide) recordPieces_documents (setCapacity_valid zeros new_valid 64)
    (List.take_prefix 21 _) (by decide) (by decide) rfl (by decide)

end Pieces

/-! ## Kernels -/

section Kernels

variable {K' : Kernel} {s s' : ScanState} {pos : ℕ} {bytes text : Bytes}

/-- Outside of strings there are only bytes that all kernels classify alike. -/
def plainOutside (K : Kernel) (s : ScanState) : Bytes → Bool
  | [] => true
  | c :: bytes => (s.inString || isPlain c) && plainOutside K (s.next K c) bytes

/-- Where two kernels have come to in the same text. -/
structure SameScan (s s' : ScanState) : Prop where
  escaped : s.escaped = s'.escaped
  inString : s.inString = s'.inString
  afterScalar : s.inString = false → s.afterScalar = s'.afterScalar

/-- What is inside of a string does not matter. -/
theorem SameScan.next (hK : K.Lawful) (hK' : K'.Lawful) (h : SameScan s s') {c : UInt8}
    (hplain : (s.inString || isPlain c) = true) :
    SameScan (s.next K c) (s'.next K' c) ∧ s.isStructural K c = s'.isStructural K' c ∧
      s.isControl c = s'.isControl c := by
  obtain ⟨hescaped, hstring, hafter⟩ := h
  have hquote : s.isQuote c = s'.isQuote c := by rw [ScanState.isQuote, ScanState.isQuote, hescaped]
  have hcontrol : s.isControl c = s'.isControl c := by
    rw [ScanState.isControl, ScanState.isControl, hstring, hquote]
  cases hin : s.inString with
  | true =>
    have hin' : s'.inString = true := hstring ▸ hin
    refine ⟨⟨?_, ?_, fun hclosed => ?_⟩, ?_, hcontrol⟩
    · rw [ScanState.next, ScanState.next, hescaped]
    · rw [ScanState.next, ScanState.next, hstring, hquote]
    · -- only a quote ends the string
      have hends : s.isQuote c = true := by
        have hnot : (s.inString ^^ s.isQuote c) = false := hclosed
        rw [hin] at hnot
        simpa using hnot
      show (K.scalar c && !s.isQuote c) = (K'.scalar c && !s'.isQuote c)
      rw [← hquote, hends, Bool.not_true, Bool.and_false, Bool.and_false]
    · rw [ScanState.isStructural, ScanState.isStructural, hin, hin', Bool.not_true, Bool.and_false,
        Bool.and_false]
  | false =>
    have hbyte : isPlain c = true := by rwa [hin, Bool.false_or] at hplain
    have hop : K.op c = K'.op c := by rw [hK.op c hbyte, hK'.op c hbyte]
    have hscalar : K.scalar c = K'.scalar c := by
      rw [Kernel.scalar, Kernel.scalar, hop, hK.whitespace, hK'.whitespace]
    refine ⟨⟨?_, ?_, fun _ => ?_⟩, ?_, hcontrol⟩
    · rw [ScanState.next, ScanState.next, hescaped]
    · rw [ScanState.next, ScanState.next, hstring, hquote]
    · rw [ScanState.next, ScanState.next, hscalar, hquote]
    · rw [ScanState.isStructural, ScanState.isStructural, hop, hscalar, hafter hin, hstring]

/-- Two kernels find the same in a text. -/
theorem SameScan.structurals_eq (hK : K.Lawful) (hK' : K'.Lawful) (h : SameScan s s')
    (hplain : plainOutside K s bytes = true) :
    structurals K s pos bytes = structurals K' s' pos bytes ∧
      hasControl K s bytes = hasControl K' s' bytes ∧
      SameScan (s.after K bytes) (s'.after K' bytes) := by
  -- on the bytes, with `SameScan` between the two states
  induction bytes generalizing s s' pos with
  | nil => exact ⟨rfl, rfl, h⟩
  | cons c bytes ih =>
    rw [plainOutside, Bool.and_eq_true] at hplain
    obtain ⟨hnext, hstructural, hcontrol⟩ := h.next hK hK' hplain.1
    obtain ⟨hrest, hcontrols, hafter⟩ := @ih _ _ (pos + 1) hnext hplain.2
    refine ⟨?_, ?_, hafter⟩
    · rw [structurals, structurals, hstructural, hrest]
    · rw [hasControl, hasControl, hcontrol, hcontrols]

/-- **The kernels agree** about every text without odd bytes outside of strings: on the result, and
if it is accepted on all indexes. -/
theorem kernels_agree (hK : K ∈ kernels) (hK' : K' ∈ kernels)
    (hplain : plainOutside K .start text = true) (hlen : text.length + 2 < 2 ^ 32)
    {p p' : DomParser} (hp : p.Valid) (hp' : p'.Valid) (hcapacity : p.capacity = p'.capacity) :
    ∃ result q q', p.stage1 K text .regular = some (result, q) ∧
      p'.stage1 K' text .regular = some (result, q') ∧
      (result = .ok () → q.nStructuralIndexes = q'.nStructuralIndexes ∧
        q.structuralIndexes.take (q.nStructuralIndexes.toNat + 3) =
          q'.structuralIndexes.take (q.nStructuralIndexes.toNat + 3)) := by
  have hsame : SameScan .start .start := ⟨rfl, rfl, fun _ => rfl⟩
  obtain ⟨hstructurals, hcontrol, hafter⟩ :=
    @SameScan.structurals_eq K K' _ _ 0 text (lawful_of_mem hK) (lawful_of_mem hK') hsame hplain
  obtain ⟨q, hstage, -, hfound⟩ := stage1_document (lawful_of_mem hK) hp hlen
  obtain ⟨q', hstage', -, hfound'⟩ := stage1_document (lawful_of_mem hK') hp' hlen
  have hresult : documentResult K' p'.capacity text = documentResult K p.capacity text := by
    rw [documentResult, documentResult, hcapacity, hafter.inString, hcontrol, hstructurals]
  rw [hresult] at hstage' hfound'
  refine ⟨_, q, q', hstage, hstage', fun hok => ?_⟩
  have hq := hfound hok
  have hq' := hfound' hok
  have hcount : q.nStructuralIndexes = q'.nStructuralIndexes := by
    apply BitVec.eq_of_toNat_eq
    rw [hq.count, hq'.count, hstructurals]
  refine ⟨hcount, ?_⟩
  rw [hq.count, hq.indexes, hstructurals, hq'.indexes]

theorem kernels_agree_records :
    let p := (DomParser.new.setCapacity zeros 64).2
    ∃ result q q', p.stage1 haswell recordPieces.flatten .regular = some (result, q) ∧
      p.stage1 arm64 recordPieces.flatten .regular = some (result, q') ∧
      (result = .ok () → q.nStructuralIndexes = q'.nStructuralIndexes ∧
        q.structuralIndexes.take (q.nStructuralIndexes.toNat + 3) =
          q'.structuralIndexes.take (q.nStructuralIndexes.toNat + 3)) :=
  kernels_agree (by simp [kernels]) (by simp [kernels]) (by decide) (by decide)
    (setCapacity_valid zeros new_valid 64) (setCapacity_valid zeros new_valid 64) rfl

/-- Behind a number they disagree about a form feed. -/
example : structurals haswell .start 0 [0x31, 0x0c] = [0, 1] ∧
    structurals arm64 .start 0 [0x31, 0x0c] = [0] := by decide

end Kernels

end Dataprint.Stage1
