import Dataprint.Stage1.Documents

/-!
# Stage 1 of simdjson

`stage1` of a `dom_parser_implementation` (`src/simdjson.cpp`) scans a text into the parser's array
of structural indexes.  Of a document it wants all, and of a part of a stream as many complete
documents as there are.

- `stage1_document` says what becomes of a document;
- `stage1_streamingFinal`, `stage1_streamingPartial` — what becomes of a part of a stream;
- `Valid` holds of a parser between two calls, and keeps all stores in its array.
-/

namespace Dataprint.Stage1

open Foundations

/-- `stage1_mode`. -/
inductive Stage1Mode where
  | regular
  | streamingPartial
  | streamingFinal
  deriving DecidableEq, Repr

/-- `is_streaming`. -/
def isStreaming (mode : Stage1Mode) : Bool := mode != .regular

/-- `json_scanner::finish`. -/
def JsonScanner.finish (scanner : JsonScanner) : Except ErrorCode Unit :=
  if scanner.stringScanner.prevInString ≠ 0 then .error .unclosedString else .ok ()

namespace DomParser

/-- `SIMDJSON_MAXSIZE_BYTES` -/
def SIMDJSON_MAXSIZE_BYTES : ℕ := 0xFFFFFFFF

/-- `SIMDJSON_ROUNDUP_N` -/
def roundupN (a n : U64) : U64 := (a + (n - 1)) &&& ~~~(n - 1)

/-- A parser that was just made. -/
def new : DomParser where
  capacity := 0
  buf := []
  structuralIndexes := []
  nStructuralIndexes := 0
  nextStructuralIndex := 0

/-- The size of the array for a capacity. -/
def maxStructures (capacity : ℕ) : ℕ := (roundupN (BitVec.ofNat 64 capacity) 64).toNat + 2 + 7

/-- `set_capacity`.  `allocate` gives the new array, with whatever is in it, or fails. -/
def setCapacity (allocate : (n : ℕ) → Option (Vector U32 n)) (parser : DomParser)
    (capacity : ℕ) : Except ErrorCode Unit × DomParser :=
  if capacity > SIMDJSON_MAXSIZE_BYTES then (.error .capacity, parser)
  else
    match allocate (maxStructures capacity) with
    | none => (.error .memalloc, { parser with structuralIndexes := [], capacity := 0 })
    | some array => (.ok (), { parser with
        structuralIndexes := array.toList.set 0 0
        nStructuralIndexes := 0
        capacity := capacity })

/-- `structural_indexes[i] = value`.  No store goes out of the array. -/
def storeIndex (parser : DomParser) (i value : U32) : Option DomParser :=
  if i.toNat < parser.structuralIndexes.length then
    some { parser with structuralIndexes := parser.structuralIndexes.set i.toNat value }
  else none

/-- What `finish` puts behind the last index. -/
def storeEnd (parser : DomParser) (tail len : ℕ) : Option DomParser := do
  let n := BitVec.ofNat 32 tail
  let parser := { parser with nStructuralIndexes := n }
  let parser ← parser.storeIndex n (BitVec.ofNat 32 len)
  let parser ← parser.storeIndex (n + 1) (BitVec.ofNat 32 len)
  let parser ← parser.storeIndex (n + 2) 0
  return { parser with nextStructuralIndex := 0 }

/-- The quote of an unclosed string is left out. -/
def omitUnclosed (parser : DomParser) (haveUnclosedString : Bool) : DomParser :=
  if haveUnclosedString then { parser with nStructuralIndexes := parser.nStructuralIndexes - 1 }
  else parser

/-- `finish`, for `streaming_partial`. -/
def truncatePartial (parser : DomParser) (haveUnclosedString : Bool) :
    Option (Except ErrorCode Unit × DomParser) := do
  let parser := parser.omitUnclosed haveUnclosedString
  if haveUnclosedString && parser.nStructuralIndexes == 0 then return (.error .capacity, parser)
  let newStructuralIndexes ← parser.findNextDocumentIndex
  if newStructuralIndexes = 0 ∧ parser.nStructuralIndexes > 0 then
    let first ← parser.structuralIndexes[0]?
    if first = 0 then return (.error .capacity, parser)
    else return (.error .empty, { parser with nStructuralIndexes := 0 })
  else return (.ok (), { parser with nStructuralIndexes := newStructuralIndexes })

/-- `finish`, for `streaming_final`. -/
def truncateFinal (parser : DomParser) (haveUnclosedString : Bool) (len : ℕ) :
    Option (Except ErrorCode Unit × DomParser) := do
  let parser := parser.omitUnclosed haveUnclosedString
  let n ← parser.findNextDocumentIndex
  let parser := { parser with nStructuralIndexes := n }
  let cut ← parser.structuralIndexes[n.toNat]?
  let parser ← parser.storeIndex (n + 1) cut
  let parser ← parser.storeIndex n (BitVec.ofNat 32 len)
  if n = 0 then return (.error .empty, parser)
  else return (.ok (), parser)

/-- `finish`, between the scan and the check of the encoding. -/
def truncate (parser : DomParser) (mode : Stage1Mode) (haveUnclosedString : Bool) (len : ℕ) :
    Option (Except ErrorCode Unit × DomParser) :=
  match mode with
  | .regular => some (.ok (), parser)
  | .streamingPartial => parser.truncatePartial haveUnclosedString
  | .streamingFinal => parser.truncateFinal haveUnclosedString len

end DomParser

namespace JsonStructuralIndexer

variable (K : Kernel)

/-- `finish`. -/
def finish (self : JsonStructuralIndexer) (parser : DomParser) (idx len : ℕ)
    (mode : Stage1Mode) : Option (Except ErrorCode Unit × DomParser) := do
  let indexer ← self.indexer.write K (BitVec.ofNat 32 idx - 64) self.prevStructurals
  let parser := { parser with structuralIndexes := indexer.buffer }
  let error := self.scanner.finish
  let haveUnclosedString := error == .error .unclosedString
  let shouldWeExit := if isStreaming mode
    then error != .ok () && error != .error .unclosedString else error != .ok ()
  if shouldWeExit then return (error, parser)
  else if self.unescapedCharsError ≠ 0 then return (.error .unescapedChars, parser)
  else do
    let parser ← parser.storeEnd indexer.tail len
    if parser.nStructuralIndexes = 0 then return (.error .empty, parser)
    else do
      let last ← parser.structuralIndexes[(parser.nStructuralIndexes - 1).toNat]?
      if last.toNat > len then return (.error .unexpectedError, parser)
      else do
        let (error, parser) ← parser.truncate mode haveUnclosedString len
        return ((do error; self.checker.checkEof.errors), parser)

/-- `index`. -/
def index (buf : Bytes) (parser : DomParser) (mode : Stage1Mode) :
    Option (Except ErrorCode Unit × DomParser) :=
  if buf.length > parser.capacity then some (.error .capacity, parser)
  else if buf.length = 0 then some (.error .empty, parser)
  else
    let len := if isStreaming mode then trimPartialUtf8 buf else buf.length
    if isStreaming mode && len == 0 then some (.error .utf8Error, parser)
    else do
      let (self, reader) ← (start K parser.structuralIndexes).indexBlocks K ⟨buf.take len, 0⟩
      let (block, n) := reader.getRemainder K
      if n = 0 then
        return (.error .unexpectedError,
          { parser with structuralIndexes := self.indexer.buffer })
      else do
        let self ← self.step K block reader.idx
        self.finish K parser (reader.advance K).idx len mode

end JsonStructuralIndexer

/-- `stage1`. -/
def DomParser.stage1 (K : Kernel) (parser : DomParser) (buf : Bytes) (mode : Stage1Mode) :
    Option (Except ErrorCode Unit × DomParser) :=
  JsonStructuralIndexer.index K buf { parser with buf := buf } mode

/-! ## The array of a parser -/

namespace DomParser

theorem toNat_ofNat_add {w n k : ℕ} (h : n + k < 2 ^ w) :
    (BitVec.ofNat w n + BitVec.ofNat w k).toNat = n + k := by
  rw [← BitVec.ofNat_add, BitVec.toNat_ofNat, Nat.mod_eq_of_lt h]

theorem ofNat_eq_zero_iff {w n : ℕ} (h : n < 2 ^ w) : BitVec.ofNat w n = 0 ↔ n = 0 := by
  rw [← BitVec.toNat_inj, BitVec.toNat_ofNat, Nat.mod_eq_of_lt h]
  rfl

/-- Rounding up is clearing the low bits. -/
theorem roundupN_eq (a : U64) : roundupN a 64 = (a + 63) >>> 6 <<< 6 := by
  have hlow : ∀ i < 64, (63 : U64).getLsbD i = decide (i < 6) := by decide
  apply BitVec.eq_of_getLsbD_eq
  intro i hi
  rw [roundupN, show (64 - 1 : U64) = 63 from rfl, BitVec.getLsbD_and, BitVec.getLsbD_not,
    hlow i hi, BitVec.getLsbD_shiftLeft, BitVec.getLsbD_ushiftRight]
  -- the mask has the low six bits
  rcases Nat.lt_or_ge i 6 with hlt | hge
  · simp [hlt]
  · simp [hi, Nat.not_lt.mpr hge, Nat.add_sub_cancel' hge]

/-- An array has a place for each byte of the capacity, in whole blocks, and nine more. -/
theorem maxStructures_eq {capacity : ℕ} (h : capacity ≤ SIMDJSON_MAXSIZE_BYTES) :
    maxStructures capacity = (capacity + 63) / 64 * 64 + 9 := by
  have hsum : (BitVec.ofNat 64 capacity + 63).toNat = capacity + 63 := by
    rw [SIMDJSON_MAXSIZE_BYTES] at h
    have hlt : capacity + 63 < 2 ^ 64 := by omega
    exact toNat_ofNat_add hlt
  have hround : (roundupN (BitVec.ofNat 64 capacity) 64).toNat = (capacity + 63) / 64 * 64 := by
    rw [SIMDJSON_MAXSIZE_BYTES] at h
    rw [roundupN_eq, BitVec.toNat_shiftLeft, BitVec.toNat_ushiftRight, hsum, Nat.shiftLeft_eq,
      Nat.shiftRight_eq_div_pow]
    exact Nat.mod_eq_of_lt (by omega)
  rw [maxStructures, hround]

/-- What holds of a parser between two calls. -/
structure Valid (parser : DomParser) : Prop where
  capacity_le : parser.capacity ≤ SIMDJSON_MAXSIZE_BYTES
  size : parser.capacity ≠ 0 → parser.structuralIndexes.length = maxStructures parser.capacity

theorem new_valid : new.Valid := ⟨Nat.zero_le _, fun h => absurd rfl h⟩

theorem setCapacity_valid (allocate : (n : ℕ) → Option (Vector U32 n)) {parser : DomParser}
    (h : parser.Valid) (capacity : ℕ) : (parser.setCapacity allocate capacity).2.Valid := by
  unfold setCapacity
  split
  case isTrue => exact h
  case isFalse hle =>
    split
    case h_1 => exact ⟨Nat.zero_le _, fun hne => absurd rfl hne⟩
    case h_2 array _ =>
      refine ⟨Nat.not_lt.mp hle, fun _ => ?_⟩
      rw [List.length_set, Vector.length_toList]

/-- A call leaves the size of the array as it is. -/
structure SameArray (before now : DomParser) : Prop where
  capacity : now.capacity = before.capacity
  buf : now.buf = before.buf
  size : now.structuralIndexes.length = before.structuralIndexes.length

namespace SameArray

variable {p q r : DomParser}

theorem refl (p : DomParser) : SameArray p p := ⟨rfl, rfl, rfl⟩

theorem trans (h : SameArray p q) (h' : SameArray q r) : SameArray p r :=
  ⟨h'.capacity.trans h.capacity, h'.buf.trans h.buf, h'.size.trans h.size⟩

theorem valid (h : SameArray p q) (hp : p.Valid) : q.Valid where
  capacity_le := h.capacity ▸ hp.capacity_le
  size hne := by
    rw [h.size, h.capacity]
    exact hp.size (h.capacity ▸ hne)

end SameArray

/-- One more index. -/
theorem storeIndex_spec {parser : DomParser} {i : U32} (value : U32)
    (hi : i.toNat < parser.structuralIndexes.length) :
    ∃ parser', parser.storeIndex i value = some parser' ∧ SameArray parser parser' ∧
      parser'.nStructuralIndexes = parser.nStructuralIndexes ∧
      parser'.nextStructuralIndex = parser.nextStructuralIndex ∧
      parser'.structuralIndexes = parser.structuralIndexes.set i.toNat value :=
  ⟨_, if_pos hi, ⟨rfl, rfl, List.length_set⟩, rfl, rfl, rfl⟩

/-- What a scan leaves in the parser. -/
structure Found (K : Kernel) (text : Bytes) (parser : DomParser) : Prop where
  count : parser.nStructuralIndexes.toNat = (structurals K .start 0 text).length
  next : parser.nextStructuralIndex = 0
  indexes : parser.structuralIndexes.take ((structurals K .start 0 text).length + 3) =
    (structurals K .start 0 text).map (BitVec.ofNat 32) ++
      [BitVec.ofNat 32 text.length, BitVec.ofNat 32 text.length, 0]

/-- The end of the array is written. -/
theorem storeEnd_spec {K : Kernel} {text : Bytes} {parser : DomParser}
    (hlen : text.length + 2 < 2 ^ 32)
    (hroom : (structurals K .start 0 text).length + 3 ≤ parser.structuralIndexes.length)
    (hindexes : parser.structuralIndexes.take (structurals K .start 0 text).length =
      (structurals K .start 0 text).map (BitVec.ofNat 32)) :
    ∃ parser', parser.storeEnd (structurals K .start 0 text).length text.length = some parser' ∧
      SameArray parser parser' ∧ Found K text parser' := by
  have hle : (structurals K .start 0 text).length ≤ text.length := length_structurals_le text
  generalize hn : (structurals K .start 0 text).length = n at *
  have hn0 : (BitVec.ofNat 32 n).toNat = n := by
    rw [BitVec.toNat_ofNat, Nat.mod_eq_of_lt (by omega)]
  have h1 : n + 1 < 2 ^ 32 := by omega
  have h2 : n + 2 < 2 ^ 32 := by omega
  have hn1 : (BitVec.ofNat 32 n + 1).toNat = n + 1 := toNat_ofNat_add h1
  have hn2 : (BitVec.ofNat 32 n + 2).toNat = n + 2 := toNat_ofNat_add h2
  obtain ⟨p1, hstore1, hsame1, hcount1, hnext1, hset1⟩ :=
    @storeIndex_spec { parser with nStructuralIndexes := BitVec.ofNat 32 n } (BitVec.ofNat 32 n)
      (BitVec.ofNat 32 text.length) (by rw [hn0]; dsimp only; omega)
  obtain ⟨p2, hstore2, hsame2, hcount2, hnext2, hset2⟩ :=
    @storeIndex_spec p1 (BitVec.ofNat 32 n + 1) (BitVec.ofNat 32 text.length)
      (by rw [hn1, hsame1.size]; dsimp only; omega)
  obtain ⟨p3, hstore3, hsame3, hcount3, hnext3, hset3⟩ :=
    @storeIndex_spec p2 (BitVec.ofNat 32 n + 2) 0
      (by rw [hn2, hsame2.size, hsame1.size]; dsimp only; omega)
  refine ⟨{ p3 with nextStructuralIndex := 0 }, ?_, ?_, ?_, rfl, ?_⟩
  · simp only [storeEnd, Option.bind_eq_bind, hstore1, Option.bind_some, hstore2, hstore3]
    rfl
  · exact ⟨(hsame3.capacity.trans hsame2.capacity).trans hsame1.capacity,
      (hsame3.buf.trans hsame2.buf).trans hsame1.buf,
      (hsame3.size.trans hsame2.size).trans hsame1.size⟩
  · rw [hn]
    show p3.nStructuralIndexes.toNat = n
    rw [hcount3, hcount2, hcount1, hn0]
  · show p3.structuralIndexes.take _ = _
    rw [hn, hset3, hset2, hset1, hn2, hn1, hn0,
      BitIndexer.take_set_succ (by rw [List.length_set, List.length_set]; exact hroom),
      BitIndexer.take_set_succ (by rw [List.length_set]; exact Nat.lt_of_succ_lt hroom),
      BitIndexer.take_set_succ (by exact Nat.lt_of_succ_lt (Nat.lt_of_succ_lt hroom)), hindexes,
      List.append_assoc, List.append_assoc]
    rfl

end DomParser

/-! ## The end of a scan -/

/-- What `json_scanner::finish` says of a text that ends inside or outside of a string. -/
def unclosed (inString : Bool) : Except ErrorCode Unit :=
  if inString then .error .unclosedString else .ok ()

theorem JsonScanner.Represents.finish {scanner : JsonScanner} {s : ScanState}
    (h : scanner.Represents s) : scanner.finish = unclosed s.inString := by
  rw [JsonScanner.finish, h.strings.strings]
  cases s.inString with
  | true => exact if_pos (by decide)
  | false => exact if_neg (by decide)

theorem unclosed_beq (inString : Bool) :
    (unclosed inString == .error .unclosedString) = inString := by
  cases inString <;> rfl

/-- `should_we_exit`: an open string counts in a document only. -/
theorem unclosed_exits (streaming inString : Bool) :
    (if streaming then unclosed inString != .ok () && unclosed inString != .error .unclosedString
      else unclosed inString != .ok ()) = (!streaming && inString) := by
  cases streaming <;> cases inString <;> rfl

/-- Where the last structural byte is. -/
theorem DomParser.Found.last {K : Kernel} {text : Bytes} {parser : DomParser}
    (h : parser.Found K text) (hlen : text.length + 2 < 2 ^ 32)
    (hne : structurals K .start 0 text ≠ []) :
    ∃ last, parser.structuralIndexes[(parser.nStructuralIndexes - 1).toNat]? = some last ∧
      last.toNat < text.length := by
  have hpos := List.length_pos_iff.mpr hne
  have hplace : (parser.nStructuralIndexes - 1).toNat =
      (structurals K .start 0 text).length - 1 := by
    have hcount := h.count
    bv_omega
  have hlast := mem_structurals (List.getElem_mem (by omega :
    (structurals K .start 0 text).length - 1 < (structurals K .start 0 text).length))
  refine ⟨BitVec.ofNat 32 (structurals K .start 0 text)[(structurals K .start 0 text).length - 1],
    ?_, ?_⟩
  · rw [hplace, ← List.getElem?_take_of_lt (by omega :
      (structurals K .start 0 text).length - 1 < (structurals K .start 0 text).length + 3),
      h.indexes, List.getElem?_append_left (by rw [List.length_map]; omega), List.getElem?_map,
      List.getElem?_eq_getElem (by omega)]
    rfl
  · rw [BitVec.toNat_ofNat, Nat.mod_eq_of_lt (by omega)]
    omega

namespace JsonStructuralIndexer

open DomParser

variable {K : Kernel} {size : ℕ} {self : JsonStructuralIndexer} {parser : DomParser} {text : Bytes}

/-- **The end of a scan**: a string that is open counts in a document only. -/
theorem Indexed.finish (hK : K.Lawful) {spaces : ℕ}
    (h : Indexed K size self (text ++ List.replicate spaces 0x20))
    (hsize : parser.structuralIndexes.length = size)
    (hroom : (structurals K .start 0 text).length + 3 ≤ size)
    (hlen : text.length + 2 < 2 ^ 32) (mode : Stage1Mode) :
    ∃ p₁ p₂, SameArray parser p₁ ∧ SameArray parser p₂ ∧ Found K text p₂ ∧
      self.finish K parser (text.length + spaces) text.length mode =
        if !isStreaming mode && (ScanState.start.after K text).inString then
          some (.error .unclosedString, p₁)
        else if hasControl K .start text then some (.error .unescapedChars, p₁)
        else if structurals K .start 0 text = [] then some (.error .empty, p₂)
        else (p₂.truncate mode (ScanState.start.after K text).inString text.length).map fun r =>
          ((do r.1; if IsUtf8 text then .ok () else .error .utf8Error), r.2) := by
  -- the spaces of the last block are no part of the text
  obtain ⟨hnone, hcontrol, hstring⟩ :=
    @structurals_spaces K (ScanState.start.after K text) (0 + text.length) hK spaces
  obtain ⟨indexer, hwrite, hbuffer, htail, hwritten⟩ := h.lastWrite
  have hfinish := h.scanner.finish
  have hunescaped := h.unescaped
  have herrors := h.checker.errors_checkEof
  have hutf8 : IsUtf8 (text ++ List.replicate spaces 0x20) ↔ IsUtf8 text := by
    apply isUtf8_append_ascii
    intro b hb
    rw [List.eq_of_mem_replicate hb]
    decide
  rw [structurals_append, hnone, List.append_nil] at htail hwritten
  rw [ScanState.after_append, hstring] at hfinish
  rw [hasControl_append, hcontrol, Bool.or_false] at hunescaped
  simp only [hutf8] at herrors
  rw [List.length_append, List.length_replicate] at hwrite
  obtain ⟨p₂, hstore, hsame, hfound⟩ := @storeEnd_spec K text
    { parser with structuralIndexes := indexer.buffer } hlen (by rwa [hbuffer])
    (by rw [← htail]; exact hwritten)
  refine ⟨{ parser with structuralIndexes := indexer.buffer }, p₂,
    ⟨rfl, rfl, hbuffer.trans hsize.symm⟩,
    ⟨hsame.capacity, hsame.buf, hsame.size.trans (hbuffer.trans hsize.symm)⟩, hfound, ?_⟩
  unfold JsonStructuralIndexer.finish
  simp only [Option.bind_eq_bind, hwrite, Option.bind_some, hfinish, htail, hstore, herrors]
  have hempty : p₂.nStructuralIndexes = 0 ↔ structurals K .start 0 text = [] := by
    rw [← List.length_eq_zero_iff, ← hfound.count]
    bv_omega
  rw [unclosed_exits, unclosed_beq]
  split
  case isTrue hopen =>
    rw [Bool.and_eq_true] at hopen
    rw [hopen.2]
    rfl
  case isFalse =>
    -- control characters come first, then whether there is anything at all
    by_cases hcontrols : hasControl K .start text = true
    · rw [if_pos (hunescaped.mpr hcontrols), if_pos hcontrols]
      rfl
    · rw [if_neg (mt hunescaped.mp hcontrols), if_neg hcontrols]
      by_cases hnil : structurals K .start 0 text = []
      · rw [if_pos (hempty.mpr hnil), if_pos hnil]
        rfl
      · obtain ⟨last, hlast, hlt⟩ := hfound.last hlen hnil
        rw [if_neg (mt hempty.mp hnil), if_neg hnil]
        simp only [hlast, Option.bind_some]
        rw [if_neg (by omega)]
        cases p₂.truncate mode (ScanState.start.after K text).inString text.length <;> rfl

end JsonStructuralIndexer

/-! ## A call -/

namespace DomParser

open JsonStructuralIndexer

variable {K : Kernel} {parser : DomParser} {buf : Bytes} {mode : Stage1Mode}

/-- The text that is scanned. -/
def scanned (buf : Bytes) (mode : Stage1Mode) : Bytes :=
  buf.take (if isStreaming mode then trimPartialUtf8 buf else buf.length)

theorem scanned_isPrefix (buf : Bytes) (mode : Stage1Mode) : scanned buf mode <+: buf :=
  List.take_prefix _ _

theorem length_scanned (buf : Bytes) (mode : Stage1Mode) :
    (scanned buf mode).length = if isStreaming mode then trimPartialUtf8 buf else buf.length := by
  rw [scanned, List.length_take]
  split
  case isTrue => exact Nat.min_eq_left (trimPartialUtf8_le buf).1
  case isFalse => exact Nat.min_self _

/-- There is room for all indexes and the end. -/
theorem Valid.exists_size (h : parser.Valid) (hcapacity : parser.capacity ≠ 0) :
    ∃ S, 64 ∣ S ∧ parser.capacity ≤ S ∧ S + 9 = parser.structuralIndexes.length := by
  refine ⟨(parser.capacity + 63) / 64 * 64, Nat.dvd_mul_left _ _, by omega, ?_⟩
  rw [h.size hcapacity, maxStructures_eq h.capacity_le]

/-- What is refused at once. -/
theorem stage1_of_refused :
    (parser.capacity < buf.length →
      parser.stage1 K buf mode = some (.error .capacity, { parser with buf := buf })) ∧
    (buf = [] → parser.stage1 K buf mode = some (.error .empty, { parser with buf := buf })) ∧
    (buf.length ≤ parser.capacity → buf ≠ [] → scanned buf mode = [] →
      parser.stage1 K buf mode = some (.error .utf8Error, { parser with buf := buf })) := by
  refine ⟨?_, ?_, ?_⟩
  · intro hlt
    rw [stage1, index, if_pos hlt]
  · rintro rfl
    have hle : ¬ ([] : Bytes).length > ({ parser with buf := [] } : DomParser).capacity :=
      Nat.not_lt_zero _
    rw [stage1, index, if_neg hle, if_pos List.length_nil]
  · intro hle hne hnil
    have hlength := length_scanned buf mode
    have hpos := List.length_pos_iff.mpr hne
    rw [hnil, List.length_nil] at hlength
    rw [stage1, index, if_neg (Nat.not_lt.mpr hle), if_neg hpos.ne']
    -- only in a stream something is trimmed
    have hstreaming : isStreaming mode = true := by
      by_contra hnot
      rw [if_neg hnot] at hlength
      omega
    rw [hstreaming, if_pos rfl] at hlength
    simp [hstreaming, ← hlength]

/-- **A call of stage 1** on a text that the parser has room for. -/
theorem stage1_spec (hK : K.Lawful) (h : parser.Valid) (hcapacity : buf.length ≤ parser.capacity)
    (hlen : buf.length + 2 < 2 ^ 32) {text : Bytes} (htext : scanned buf mode = text)
    (hne : text ≠ []) :
    ∃ p₁ p₂, SameArray { parser with buf := buf } p₁ ∧ SameArray { parser with buf := buf } p₂ ∧
      Found K text p₂ ∧ parser.stage1 K buf mode =
        if !isStreaming mode && (ScanState.start.after K text).inString then
          some (.error .unclosedString, p₁)
        else if hasControl K .start text then some (.error .unescapedChars, p₁)
        else if structurals K .start 0 text = [] then some (.error .empty, p₂)
        else (p₂.truncate mode (ScanState.start.after K text).inString text.length).map fun r =>
          ((do r.1; if IsUtf8 text then .ok () else .error .utf8Error), r.2) := by
  have hlength : text.length = if isStreaming mode then trimPartialUtf8 buf else buf.length := by
    rw [← htext, length_scanned]
  have hpos := List.length_pos_iff.mpr hne
  have hle : text.length ≤ buf.length := by
    rw [← htext]
    exact (scanned_isPrefix buf mode).length_le
  obtain ⟨S, hS, hcap, hsize⟩ := h.exists_size (by omega)
  have hcount : (structurals K .start 0 text).length ≤ text.length := length_structurals_le text
  obtain ⟨self, reader, self', spaces, hblocks, hrest, hstep, hidx, hindexed⟩ :=
    @exists_indexed K S text hK hne hS (by omega) parser.structuralIndexes (by omega)
  obtain ⟨p₁, p₂, hsame₁, hsame₂, hfound, hfinish⟩ :=
    @Indexed.finish K _ self' { parser with buf := buf } text hK spaces hindexed rfl (by omega)
      (by omega) mode
  refine ⟨p₁, p₂, hsame₁, hsame₂, hfound, ?_⟩
  rw [← hfinish, stage1, index, if_neg (Nat.not_lt.mpr hcapacity), if_neg (by omega)]
  have htake : buf.take text.length = text := by
    rw [hlength]
    exact htext
  have hnonzero : (isStreaming mode && text.length == 0) = false := by
    rw [beq_eq_false_iff_ne.mpr hpos.ne', Bool.and_false]
  simp only [← hlength, htake, hnonzero, Bool.false_eq_true, if_false, Option.bind_eq_bind, hblocks,
    Option.bind_some]
  rw [if_neg hrest]
  simp only [hstep, Option.bind_some, hidx]

/-- What becomes of a document, in the order in which stage 1 looks. -/
def documentResult (K : Kernel) (capacity : ℕ) (text : Bytes) : Except ErrorCode Unit :=
  if capacity < text.length then .error .capacity
  else if text = [] then .error .empty
  else if (ScanState.start.after K text).inString then .error .unclosedString
  else if hasControl K .start text then .error .unescapedChars
  else if structurals K .start 0 text = [] then .error .empty
  else if IsUtf8 text then .ok ()
  else .error .utf8Error

/-- **A document is accepted** if it is UTF-8, all its strings are closed and have no control
characters in them, and there is anything in it.  The parser then has all its structurals. -/
theorem stage1_document (hK : K.Lawful) (h : parser.Valid) {text : Bytes}
    (hlen : text.length + 2 < 2 ^ 32) :
    ∃ parser', parser.stage1 K text .regular =
        some (documentResult K parser.capacity text, parser') ∧
      SameArray { parser with buf := text } parser' ∧
      (documentResult K parser.capacity text = .ok () → Found K text parser') := by
  obtain ⟨hcapacity, hempty, -⟩ := @stage1_of_refused K parser text .regular
  unfold documentResult
  split
  case isTrue hlt => exact ⟨_, hcapacity hlt, .refl _, fun h => nomatch h⟩
  case isFalse hle =>
    split
    case isTrue hnil => exact ⟨_, hempty hnil, .refl _, fun h => nomatch h⟩
    case isFalse hne =>
      have hscanned : scanned text .regular = text := List.take_length
      obtain ⟨p₁, p₂, hsame₁, hsame₂, hfound, hstage⟩ :=
        stage1_spec hK h (Nat.not_lt.mp hle) hlen hscanned hne
      rw [hstage, show isStreaming .regular = false from rfl, Bool.not_false, Bool.true_and]
      split
      case isTrue => exact ⟨p₁, rfl, hsame₁, fun h => nomatch h⟩
      case isFalse =>
        split
        case isTrue => exact ⟨p₁, rfl, hsame₁, fun h => nomatch h⟩
        case isFalse =>
          split
          case isTrue => exact ⟨p₂, rfl, hsame₂, fun h => nomatch h⟩
          case isFalse => exact ⟨p₂, rfl, hsame₂, fun _ => hfound⟩

/-- An allocation that does not fail, for examples. -/
def zeros (n : ℕ) : Option (Vector U32 n) := some (Vector.replicate n 0)

section Streams

variable {text rest : Bytes} {docs : List Element}

/-- The structural bytes of a text, less the quote of a string that it breaks off in. -/
def keptBytes (K : Kernel) (text : Bytes) : Bytes :=
  if (ScanState.start.after K text).inString then (structuralBytes K .start text).dropLast
  else structuralBytes K .start text

theorem length_keptBytes_le (K : Kernel) (text : Bytes) :
    (keptBytes K text).length ≤ (structurals K .start 0 text).length := by
  rw [← length_structuralBytes, keptBytes]
  split
  · rw [List.length_dropLast]
    exact Nat.sub_le _ 1
  · exact Nat.le_refl _

/-- A text that is made of complete documents, and of the beginning of another one. -/
structure PartOf (K : Kernel) (text : Bytes) (docs : List Element) (rest : Bytes) : Prop where
  complete : ∀ doc ∈ docs, Complete doc
  truncated : rest = [] ∨ Truncated rest
  bytes : keptBytes K text = docs.flatMap tokens ++ rest
  noControl : hasControl K .start text = false
  utf8 : IsUtf8 text

@[simp] theorem omitUnclosed_structuralIndexes (p : DomParser) (b : Bool) :
    (p.omitUnclosed b).structuralIndexes = p.structuralIndexes := by
  cases b <;> rfl

theorem omitUnclosed_sameArray (p : DomParser) (b : Bool) : SameArray p (p.omitUnclosed b) := by
  cases b <;> exact ⟨rfl, rfl, rfl⟩

/-- The first of a list, from more of it. -/
theorem take_of_take_eq_append {α : Type} {l a b : List α} {m n : ℕ} (h : l.take n = a ++ b)
    (hmn : m ≤ n) (hm : m ≤ a.length) : l.take m = a.take m := by
  have htake := congrArg (List.take m) h
  rwa [List.take_take, Nat.min_eq_left hmn, List.take_append_of_le_length hm] at htake

theorem Found.take_indexes (h : Found K text parser) {n : ℕ}
    (hn : n ≤ (structurals K .start 0 text).length) :
    parser.structuralIndexes.take n =
      ((structurals K .start 0 text).take n).map (BitVec.ofNat 32) := by
  rw [List.map_take]
  exact take_of_take_eq_append h.indexes (by omega) (by rwa [List.length_map])

theorem Found.room (h : Found K text parser) :
    (structurals K .start 0 text).length + 3 ≤ parser.structuralIndexes.length := by
  have hlength := congrArg List.length h.indexes
  rw [List.length_take, List.length_append, List.length_map] at hlength
  simp only [List.length_cons, List.length_nil] at hlength
  omega

/-- Where the first structural byte is. -/
theorem Found.first (h : Found K text parser) (hlen : text.length + 2 < 2 ^ 32)
    (hne : structurals K .start 0 text ≠ []) :
    ∃ first, parser.structuralIndexes[0]? = some first ∧
      (first = 0 ↔ (structurals K .start 0 text).head? = some 0) := by
  obtain ⟨i, is, his⟩ := List.exists_cons_of_ne_nil hne
  have hi : i < 2 ^ 32 := by
    have hlt := (mem_structurals (his ▸ List.mem_cons_self)).2
    omega
  refine ⟨BitVec.ofNat 32 i, ?_, ?_⟩
  · rw [← List.getElem?_take_of_lt Nat.zero_lt_one,
      h.take_indexes (by rw [his]; exact Nat.le_add_left 1 _), his]
    rfl
  · rw [his, List.head?_cons, Option.some.injEq, ofNat_eq_zero_iff hi]

/-- Outside of strings everything is kept. -/
theorem keptBytes_ne_nil (hclosed : (ScanState.start.after K text).inString = false)
    (hne : structurals K .start 0 text ≠ []) : keptBytes K text ≠ [] := by
  intro hnil
  rw [keptBytes, hclosed, if_neg Bool.false_ne_true, ← List.length_eq_zero_iff,
    length_structuralBytes, List.length_eq_zero_iff] at hnil
  exact hne hnil

/-- The parser sees what is kept. -/
theorem Found.shows (h : Found K text parser) (hlen : text.length + 2 < 2 ^ 32)
    (hbuf : text <+: parser.buf) (hne : structurals K .start 0 text ≠ []) :
    (parser.omitUnclosed (ScanState.start.after K text).inString).Shows (keptBytes K text) := by
  have hpos := List.length_pos_iff.mpr hne
  have hbytes := @length_structuralBytes K .start text
  have hcount := h.count
  unfold keptBytes omitUnclosed
  -- the quote that opens the string is the last structural byte
  cases (ScanState.start.after K text).inString with
  | true =>
    rw [if_pos rfl, if_pos rfl, List.dropLast_eq_take, hbytes]
    have hlast : (parser.nStructuralIndexes - 1).toNat =
        (structurals K .start 0 text).length - 1 := by bv_omega
    exact @shows_of_indexes K { parser with nStructuralIndexes := parser.nStructuralIndexes - 1 }
      text (by omega) hbuf _ (Nat.sub_le _ 1) hlast (h.take_indexes (Nat.sub_le _ 1))
  | false =>
    rw [if_neg Bool.false_ne_true, if_neg Bool.false_ne_true,
      ← List.take_of_length_le (Nat.le_of_eq hbytes)]
    exact shows_of_indexes (by omega) hbuf (Nat.le_refl _) hcount (h.take_indexes (Nat.le_refl _))

theorem flatMap_tokens_eq_nil_iff (hdocs : ∀ doc ∈ docs, Complete doc) :
    docs.flatMap tokens = [] ↔ docs = [] := by
  constructor
  · intro hnil
    cases docs with
    | nil => rfl
    | cons doc docs =>
      rw [List.flatMap_cons, List.append_eq_nil_iff] at hnil
      exact absurd hnil.1 (hdocs doc List.mem_cons_self).isValue.ne_nil
  · rintro rfl
    rfl

/-- **The last part of a stream** is cut where the search ends. -/
theorem truncateFinal_spec {p : DomParser} {b : Bool} {len m : ℕ}
    (hfind : (p.omitUnclosed b).findNextDocumentIndex = some (BitVec.ofNat 32 m))
    (hroom : m + 1 < p.structuralIndexes.length) (hwrap : m + 1 < 2 ^ 32) :
    ∃ p', p.truncateFinal b len = some (if m = 0 then .error .empty else .ok (), p') ∧
      SameArray p p' ∧ p'.nStructuralIndexes.toNat = m ∧
      p'.structuralIndexes.take (m + 1) = p.structuralIndexes.take m ++ [BitVec.ofNat 32 len] := by
  have hm : (BitVec.ofNat 32 m).toNat = m := by
    rw [BitVec.toNat_ofNat, Nat.mod_eq_of_lt (by omega)]
  have hm1 : (BitVec.ofNat 32 m + 1).toNat = m + 1 := toNat_ofNat_add hwrap
  have hsame := omitUnclosed_sameArray p b
  have hlt : m < p.structuralIndexes.length := Nat.lt_of_succ_lt hroom
  obtain ⟨p1, hstore1, hsame1, hcount1, -, hset1⟩ :=
    @storeIndex_spec { p.omitUnclosed b with nStructuralIndexes := BitVec.ofNat 32 m }
      (BitVec.ofNat 32 m + 1) p.structuralIndexes[m]
      (by rw [hm1]; exact hroom.trans_eq hsame.size.symm)
  obtain ⟨p2, hstore2, hsame2, hcount2, -, hset2⟩ :=
    @storeIndex_spec p1 (BitVec.ofNat 32 m) (BitVec.ofNat 32 len)
      (by rw [hm, hsame1.size]; exact hlt.trans_eq hsame.size.symm)
  refine ⟨p2, ?_, ?_, ?_, ?_⟩
  · have hget : p.structuralIndexes[m]? = some p.structuralIndexes[m] :=
      List.getElem?_eq_getElem hlt
    have hzero : BitVec.ofNat 32 m = 0 ↔ m = 0 := ofNat_eq_zero_iff (Nat.lt_of_succ_lt hwrap)
    simp only [omitUnclosed_structuralIndexes] at hstore1
    unfold truncateFinal
    simp only [Option.bind_eq_bind, hfind, Option.bind_some, omitUnclosed_structuralIndexes, hm,
      hget, hstore1, hstore2, hzero]
    split <;> rfl
  · exact hsame.trans ⟨hsame2.capacity.trans hsame1.capacity, hsame2.buf.trans hsame1.buf,
      hsame2.size.trans hsame1.size⟩
  · rw [hcount2, hcount1]
    exact hm
  · rw [hset2, hset1, hm, hm1, BitIndexer.take_set_succ, List.take_set_of_le (Nat.le_succ m),
      omitUnclosed_structuralIndexes]
    rw [List.length_set, omitUnclosed_structuralIndexes]
    omega

/-- `truncatePartial`, when the search has ended. -/
theorem truncatePartial_eq {p : DomParser} {b : Bool} {new first : U32}
    (hfind : (p.omitUnclosed b).findNextDocumentIndex = some new)
    (hfirst : p.structuralIndexes[0]? = some first) :
    p.truncatePartial b = some (
      if b && (p.omitUnclosed b).nStructuralIndexes == 0 then (.error .capacity, p.omitUnclosed b)
      else if new = 0 ∧ (p.omitUnclosed b).nStructuralIndexes > 0 then
        if first = 0 then (.error .capacity, p.omitUnclosed b)
        else (.error .empty, { p.omitUnclosed b with nStructuralIndexes := 0 })
      else (.ok (), { p.omitUnclosed b with nStructuralIndexes := new })) := by
  unfold truncatePartial
  simp only [Option.bind_eq_bind, hfind, Option.bind_some, omitUnclosed_structuralIndexes, hfirst]
  split_ifs <;> rfl

/-- **A part of a stream** is cut behind its last complete document, if it has one. -/
theorem truncatePartial_spec {p : DomParser} {b : Bool} {first : U32}
    (hshows : (p.omitUnclosed b).Shows (docs.flatMap tokens ++ rest))
    (hdocs : ∀ doc ∈ docs, Complete doc) (hrest : rest = [] ∨ Truncated rest)
    (hsome : b = false → docs.flatMap tokens ++ rest ≠ [])
    (hfirst : p.structuralIndexes[0]? = some first)
    (hwrap : (docs.flatMap tokens).length < 2 ^ 32) :
    ∃ p', p.truncatePartial b = some (if docs = [] then
          .error (if rest = [] ∨ first = 0 then .capacity else .empty) else .ok (), p') ∧
      SameArray p p' ∧ p'.structuralIndexes = p.structuralIndexes ∧
      (docs ≠ [] → p'.nStructuralIndexes.toNat = (docs.flatMap tokens).length) := by
  have hsame := omitUnclosed_sameArray p b
  have hindexes := omitUnclosed_structuralIndexes p b
  have hnew : BitVec.ofNat 32 (docs.flatMap tokens).length = 0 ↔ docs = [] := by
    rw [ofNat_eq_zero_iff hwrap, List.length_eq_zero_iff, flatMap_tokens_eq_nil_iff hdocs]
  have hzero : (p.omitUnclosed b).nStructuralIndexes = 0 ↔ docs = [] ∧ rest = [] := by
    rw [← BitVec.toNat_inj, hshows.count, ← flatMap_tokens_eq_nil_iff hdocs,
      ← List.append_eq_nil_iff]
    exact List.length_eq_zero_iff
  rw [truncatePartial_eq (findNextDocumentIndex_eq hshows hdocs hrest) hfirst]
  simp only [hnew, Bool.and_eq_true, beq_iff_eq]
  split
  case isTrue hquote =>
    -- all there is is the quote of an open string
    obtain ⟨rfl, rfl⟩ := hzero.mp hquote.2
    exact ⟨p.omitUnclosed b, rfl, hsame, hindexes, fun h => absurd rfl h⟩
  case isFalse hquote =>
    have hnonzero : (p.omitUnclosed b).nStructuralIndexes ≠ 0 := by
      intro hnone
      have hclosed : b = false := Bool.eq_false_iff.mpr fun hopen => hquote ⟨hopen, hnone⟩
      exact hsome hclosed (by simp [hzero.mp hnone])
    have hpos : (p.omitUnclosed b).nStructuralIndexes > 0 := by bv_omega
    -- no document: it is the first index that tells a long one from white space
    split
    case isTrue hnone =>
      obtain ⟨rfl, -⟩ := hnone
      have hne : rest ≠ [] := fun hnil => hnonzero (hzero.mpr ⟨rfl, hnil⟩)
      split
      case isTrue hat =>
        refine ⟨p.omitUnclosed b, ?_, hsame, hindexes, fun h => absurd rfl h⟩
        rw [if_pos rfl, if_pos (.inr hat)]
      case isFalse hat =>
        refine ⟨{ p.omitUnclosed b with nStructuralIndexes := 0 }, ?_,
          ⟨hsame.capacity, hsame.buf, hsame.size⟩, hindexes, fun h => absurd rfl h⟩
        rw [if_pos rfl, if_neg (not_or.mpr ⟨hne, hat⟩)]
    case isFalse hfound =>
      have hdocs' : docs ≠ [] := fun hnil => hfound ⟨hnil, hpos⟩
      refine ⟨{ p.omitUnclosed b with
          nStructuralIndexes := BitVec.ofNat 32 (docs.flatMap tokens).length }, ?_,
        ⟨hsame.capacity, hsame.buf, hsame.size⟩, hindexes, fun _ => ?_⟩
      · rw [if_neg hdocs']
      · exact (BitVec.toNat_ofNat ..).trans (Nat.mod_eq_of_lt hwrap)

/-- Of a part in which nothing is found. -/
theorem PartOf.docs_eq_nil (hpart : PartOf K text docs rest)
    (hnone : structurals K .start 0 text = []) : docs = [] := by
  have hbytes := hpart.bytes
  have hlength := @length_structuralBytes K .start text
  rw [hnone, List.length_nil, List.length_eq_zero_iff] at hlength
  rw [keptBytes, hlength, List.dropLast_nil, ite_self] at hbytes
  exact (flatMap_tokens_eq_nil_iff hpart.complete).mp (List.append_eq_nil_iff.mp hbytes.symm).1

theorem PartOf.length_le (hpart : PartOf K text docs rest) :
    (docs.flatMap tokens).length ≤ (structurals K .start 0 text).length := by
  have hbytes := congrArg List.length hpart.bytes
  have hkept := length_keptBytes_le K text
  rw [List.length_append] at hbytes
  omega

/-- **The last part of a stream**: all complete documents are kept, a truncated one behind them is
dropped, also where it breaks off in a string. -/
theorem stage1_streamingFinal (hK : K.Lawful) (h : parser.Valid)
    (hcapacity : buf.length ≤ parser.capacity) (hlen : buf.length < 2 ^ 31)
    (htext : scanned buf .streamingFinal = text) (hne : text ≠ [])
    (hpart : PartOf K text docs rest) :
    ∃ parser', parser.stage1 K buf .streamingFinal =
        some (if docs = [] then .error .empty else .ok (), parser') ∧
      SameArray { parser with buf := buf } parser' ∧
      parser'.nStructuralIndexes.toNat = (docs.flatMap tokens).length ∧
      parser'.structuralIndexes.take ((docs.flatMap tokens).length + 1) =
        ((structurals K .start 0 text).take (docs.flatMap tokens).length).map (BitVec.ofNat 32) ++
          [BitVec.ofNat 32 text.length] := by
  have hprefix := htext ▸ scanned_isPrefix buf .streamingFinal
  have hle := hprefix.length_le
  obtain ⟨p₁, p₂, -, hsame, hfound, hstage⟩ :=
    stage1_spec hK h hcapacity (by omega) htext hne
  rw [hstage, show isStreaming .streamingFinal = true from rfl, Bool.not_true, Bool.false_and,
    if_neg Bool.false_ne_true, hpart.noControl, if_neg Bool.false_ne_true, if_pos hpart.utf8]
  have hroom := hfound.room
  have hcount := @length_structurals_le K .start 0 text
  have hempty := flatMap_tokens_eq_nil_iff hpart.complete
  split
  case isTrue hnone =>
    have hdocs := hpart.docs_eq_nil hnone
    have hn := hfound.count
    have hindexes := congrArg (List.take 1) hfound.indexes
    rw [hnone] at hn hindexes
    rw [List.length_nil, List.take_take] at hindexes
    rw [hdocs, if_pos rfl]
    exact ⟨p₂, rfl, hsame, hn, hindexes⟩
  case isFalse hsome =>
    have hshows := hfound.shows (by omega) (hsame.buf ▸ hprefix) hsome
    rw [hpart.bytes] at hshows
    have hfind := findNextDocumentIndex_eq hshows hpart.complete hpart.truncated
    have hm := hpart.length_le
    obtain ⟨p', hfinal, hsame', hn, hindexes⟩ :=
      @truncateFinal_spec p₂ _ text.length _ hfind (by omega) (by omega)
    rw [hfound.take_indexes hm] at hindexes
    have hzero : (docs.flatMap tokens).length = 0 ↔ docs = [] := by
      rw [List.length_eq_zero_iff, hempty]
    refine ⟨p', ?_, hsame.trans hsame', hn, hindexes⟩
    rw [truncate, hfinal, Option.map_some]
    simp only [hzero]
    split <;> rfl

/-- What is reported of a part without a complete document. -/
def partialError (K : Kernel) (text rest : Bytes) : ErrorCode :=
  if structurals K .start 0 text = [] then .empty
  else if rest = [] ∨ (structurals K .start 0 text).head? = some 0 then .capacity
  else .empty

/-- **A part of a stream**: all complete documents are kept; if there is none, the parser reports
that it has no room for the first one, or that there is nothing before it. -/
theorem stage1_streamingPartial (hK : K.Lawful) (h : parser.Valid)
    (hcapacity : buf.length ≤ parser.capacity) (hlen : buf.length < 2 ^ 31)
    (htext : scanned buf .streamingPartial = text) (hne : text ≠ [])
    (hpart : PartOf K text docs rest) :
    ∃ parser', parser.stage1 K buf .streamingPartial =
        some (if docs = [] then .error (partialError K text rest) else .ok (), parser') ∧
      SameArray { parser with buf := buf } parser' ∧
      (docs ≠ [] → parser'.nStructuralIndexes.toNat = (docs.flatMap tokens).length ∧
        parser'.structuralIndexes.take ((structurals K .start 0 text).length + 3) =
          (structurals K .start 0 text).map (BitVec.ofNat 32) ++
            [BitVec.ofNat 32 text.length, BitVec.ofNat 32 text.length, 0]) := by
  have hprefix := htext ▸ scanned_isPrefix buf .streamingPartial
  have hle := hprefix.length_le
  obtain ⟨p₁, p₂, -, hsame, hfound, hstage⟩ :=
    stage1_spec hK h hcapacity (by omega) htext hne
  rw [hstage, show isStreaming .streamingPartial = true from rfl, Bool.not_true, Bool.false_and,
    if_neg Bool.false_ne_true, hpart.noControl, if_neg Bool.false_ne_true, if_pos hpart.utf8,
    partialError]
  have hcount := @length_structurals_le K .start 0 text
  split
  case isTrue hnone =>
    have hdocs := hpart.docs_eq_nil hnone
    rw [if_pos hdocs]
    exact ⟨p₂, rfl, hsame, fun h => absurd hdocs h⟩
  case isFalse hsome =>
    have hshows := hfound.shows (by omega) (hsame.buf ▸ hprefix) hsome
    have hm := hpart.length_le
    have hbytes := hpart.bytes
    obtain ⟨first, hfirst, hzero⟩ := hfound.first (by omega) hsome
    rw [hbytes] at hshows
    obtain ⟨p', hpartial, hsame', hindexes, hn⟩ := truncatePartial_spec hshows hpart.complete
      hpart.truncated (fun hclosed => hbytes ▸ keptBytes_ne_nil hclosed hsome) hfirst (by omega)
    refine ⟨p', ?_, hsame.trans hsame', fun hdocs => ⟨hn hdocs, ?_⟩⟩
    · rw [truncate, hpartial, Option.map_some]
      simp only [hzero]
      split <;> rfl
    · rw [hindexes]
      exact hfound.indexes

end Streams

end DomParser

end Dataprint.Stage1
