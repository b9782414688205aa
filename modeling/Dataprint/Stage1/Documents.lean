import Dataprint.Foundations.Nesting
import Dataprint.Stage1.Indexer
import Mathlib.Data.List.Chain

/-!
# Where the Last Document Ends

A text that is read in parts may end in the middle of a document.  `find_next_document_index`
(`src/simdjson.cpp`) goes back over the structural bytes to the last place where a value follows
another one, counting brackets: what comes after that place is a document if all of them are closed.

- `tokens` are the structural bytes of a document;
- `findNextDocumentIndex_eq` — complete documents are kept, and what is left of another one is not.
-/

namespace Dataprint.Stage1

open Foundations

/-- `dom_parser_implementation`, as far as stage 1 goes. -/
structure DomParser where
  capacity : ℕ
  buf : Bytes
  structuralIndexes : List U32
  nStructuralIndexes : U32
  nextStructuralIndex : U32

namespace DomParser

/-- `buf[structural_indexes[i]]`.  Nothing is read outside of the two buffers. -/
def structuralByte (parser : DomParser) (i : ℕ) : Option UInt8 := do
  let idx ← parser.structuralIndexes[i]?
  parser.buf[idx.toNat]?

/-- One bracket more or less. -/
def countBracket (c : UInt8) (arrCnt objCnt : ℤ) : ℤ × ℤ :=
  if c = 0x7d then (arrCnt, objCnt - 1)
  else if c = 0x5d then (arrCnt - 1, objCnt)
  else if c = 0x7b then (arrCnt, objCnt + 1)
  else if c = 0x5b then (arrCnt + 1, objCnt)
  else (arrCnt, objCnt)

/-- No document starts with the byte: a colon, a comma, or something that closes. -/
def goesOn (b : UInt8) : Bool := b == 0x3a || b == 0x2c || b == 0x7d || b == 0x5d

/-- No document ends with the byte: a colon, a comma, or something that opens. -/
def leavesOpen (a : UInt8) : Bool := a == 0x7b || a == 0x5b || a == 0x3a || a == 0x2c

/-- The loop of `find_next_document_index`, from the structural `i` on, and what follows it. -/
def findFrom (parser : DomParser) : ℕ → ℤ → ℤ → Option U32
  | 0, arrCnt, objCnt => do
    let b ← parser.structuralByte 0
    let (arrCnt, objCnt) := countBracket b arrCnt objCnt
    if arrCnt = 0 ∧ objCnt = 0 then return parser.nStructuralIndexes
    else return 0
  | i + 1, arrCnt, objCnt => do
    let b ← parser.structuralByte (i + 1)
    let (arrCnt, objCnt) := countBracket b arrCnt objCnt
    if goesOn b then parser.findFrom i arrCnt objCnt
    else do
      let a ← parser.structuralByte i
      if leavesOpen a then parser.findFrom i arrCnt objCnt
      else if arrCnt = 0 ∧ objCnt = 0 then return parser.nStructuralIndexes
      else return BitVec.ofNat 32 (i + 1)

/-- `find_next_document_index`. -/
def findNextDocumentIndex (parser : DomParser) : Option U32 :=
  if parser.nStructuralIndexes = 0 then some 0
  else parser.findFrom (parser.nStructuralIndexes - 1).toNat 0 0

end DomParser

/-! ## Going back to a boundary -/

open DomParser

/-- What a byte does to the count of arrays. -/
def arrayWeight (c : UInt8) : ℤ := if c = 0x5b then 1 else if c = 0x5d then -1 else 0

/-- What a byte does to the count of objects. -/
def objectWeight (c : UInt8) : ℤ := if c = 0x7b then 1 else if c = 0x7d then -1 else 0

theorem countBracket_eq (c : UInt8) (arrCnt objCnt : ℤ) :
    countBracket c arrCnt objCnt = (arrayWeight c + arrCnt, objectWeight c + objCnt) := by
  unfold countBracket arrayWeight objectWeight
  by_cases h1 : c = 0x7d
  · simp [h1, Int.sub_eq_add_neg, Int.add_comm]
  by_cases h2 : c = 0x5d
  · simp [h2, Int.sub_eq_add_neg, Int.add_comm]
  by_cases h3 : c = 0x7b
  · simp [h3, Int.add_comm]
  by_cases h4 : c = 0x5b
  · simp [h4, Int.add_comm]
  simp [h1, h2, h3, h4]

/-- The two bytes belong to one document. -/
def Joined (a b : UInt8) : Prop := leavesOpen a = true ∨ goesOn b = true

theorem not_joined {a b : UInt8} (ha : leavesOpen a = false) (hb : goesOn b = false) :
    ¬ Joined a b := by
  rw [Joined, ha, hb]
  simp

/-- The structural bytes that the parser has found. -/
structure DomParser.Shows (parser : DomParser) (ts : Bytes) : Prop where
  count : parser.nStructuralIndexes.toNat = ts.length
  bytes : ∀ i (hi : i < ts.length), parser.structuralByte i = some ts[i]

section Boundary

variable {parser : DomParser} {ts : Bytes} {start : ℕ}

theorem DomParser.Shows.nStructuralIndexes_eq (h : parser.Shows ts) :
    parser.nStructuralIndexes = BitVec.ofNat 32 ts.length := by
  rw [← h.count, BitVec.ofNat_toNat, BitVec.setWidth_eq]

/-- **The loop goes back to a boundary**, and has then counted what comes after it. -/
theorem findFrom_eq (h : parser.Shows ts)
    (hjoined : ∀ i, start ≤ i → ∀ hi : i + 1 < ts.length, Joined ts[i] ts[i + 1])
    (hboundary : ∀ i, i + 1 = start → ∀ hi : i + 1 < ts.length, ¬ Joined ts[i] ts[i + 1])
    {i : ℕ} (hstart : start ≤ i) (hi : i < ts.length) :
    parser.findFrom i (depth arrayWeight (ts.drop (i + 1)))
        (depth objectWeight (ts.drop (i + 1))) =
      some (if depth arrayWeight (ts.drop start) = 0 ∧ depth objectWeight (ts.drop start) = 0
        then parser.nStructuralIndexes else BitVec.ofNat 32 start) := by
  -- on the index that the loop has come to: the counters stand for the bytes behind it
  induction i with
  | zero =>
    have hzero : start = 0 := by omega
    rw [findFrom, h.bytes 0 hi]
    simp only [Option.bind_eq_bind, Option.bind_some, countBracket_eq, depth_drop hi, hzero]
    split <;> rfl
  | succ i ih =>
    rw [findFrom, h.bytes (i + 1) hi, h.bytes i (by omega)]
    simp only [Option.bind_eq_bind, Option.bind_some, countBracket_eq, depth_drop hi]
    by_cases hat : start = i + 1
    · -- the boundary
      have hnot := hboundary i hat.symm hi
      rw [Joined, not_or, Bool.not_eq_true, Bool.not_eq_true] at hnot
      simp only [hnot.1, hnot.2, Bool.false_eq_true, if_false, hat]
      split <;> rfl
    -- no boundary: the loop goes on, for one reason or the other
    · have hrest := ih (by omega) (by omega)
      rcases hjoined i (by omega) hi with hopen | hgoes
      · rw [hopen]
        simp only [if_true, hrest, ite_self]
      · rw [hgoes, if_pos rfl, hrest]

/-- **What comes after the last boundary** is kept if all its brackets are closed. -/
theorem findNextDocumentIndex_of_boundary {pre rest : Bytes} (h : parser.Shows (pre ++ rest))
    (hrest : rest ≠ []) (hjoined : rest.IsChain Joined)
    (hboundary : ∀ a ∈ pre.getLast?, ∀ b ∈ rest.head?, ¬ Joined a b) :
    parser.findNextDocumentIndex =
      some (if depth arrayWeight rest = 0 ∧ depth objectWeight rest = 0
        then parser.nStructuralIndexes else BitVec.ofNat 32 pre.length) := by
  have hpos : 0 < rest.length := List.length_pos_iff.mpr hrest
  have hlength : (pre ++ rest).length = pre.length + rest.length := List.length_append
  have hcount := h.count
  have hnone : parser.nStructuralIndexes ≠ 0 := by
    intro hzero
    rw [hzero] at hcount
    simp at hcount
    omega
  have hlast : (parser.nStructuralIndexes - 1).toNat = (pre ++ rest).length - 1 := by
    rw [← hcount]
    bv_omega
  have hdrop : (pre ++ rest).drop ((pre ++ rest).length - 1 + 1) = [] :=
    List.drop_of_length_le (by omega)
  have hall : (pre ++ rest).drop pre.length = rest := List.drop_left
  have hloop := @findFrom_eq parser (pre ++ rest) pre.length h ?_ ?_ ((pre ++ rest).length - 1)
    (by omega) (by omega)
  · rw [hdrop, hall] at hloop
    rw [findNextDocumentIndex, if_neg hnone, hlast]
    exact hloop
  · intro i hle hi
    rw [List.isChain_iff_getElem] at hjoined
    have hpair := hjoined (i - pre.length) (by omega)
    rw [List.getElem_append_right (by omega), List.getElem_append_right (by omega)]
    simpa [show i + 1 - pre.length = i - pre.length + 1 by omega] using hpair
  · intro i heq hi
    have hi' : i < pre.length := by omega
    apply hboundary
    · rw [List.getElem_append_left hi', List.getLast?_eq_getElem?, ← heq, Nat.add_sub_cancel,
        List.getElem?_eq_getElem hi']
      rfl
    · rw [List.getElem_append_right (by omega), List.head?_eq_getElem?]
      simp [heq, hpos]

end Boundary

/-! ## The structural bytes of a document -/

mutual

/-- The structural bytes of a value: brackets, colons, commas and the first bytes of scalars. -/
def tokens : Element → Bytes
  | .object fields _ => 0x7b :: [0x2c].intercalate (fieldTokens fields) ++ [0x7d]
  | .array children _ => 0x5b :: [0x2c].intercalate (childTokens children) ++ [0x5d]
  | .scalar t => t.text.take 1

def fieldTokens : List (Except ErrorCode Bytes × Element) → List Bytes
  | [] => []
  | (_, value) :: rest => (quote :: 0x3a :: tokens value) :: fieldTokens rest

def childTokens : List Element → List Bytes
  | [] => []
  | child :: rest => tokens child :: childTokens rest

end

/-- Every object and array ends, and every scalar has a type. -/
inductive Complete : Element → Prop where
  | object {fields : List (Except ErrorCode Bytes × Element)} :
      (∀ field ∈ fields, Complete field.2) → Complete (.object fields none)
  | array {children : List Element} :
      (∀ child ∈ children, Complete child) → Complete (.array children none)
  | scalar {t : Token} : t.type ≠ .unknown → Complete (.scalar t)

/-- What a document was cut off to: something of it, and not all. -/
def Truncated (ts : Bytes) : Prop :=
  ∃ doc, Complete doc ∧ ts <+: tokens doc ∧ ts ≠ [] ∧ ts ≠ tokens doc

/-- Brackets and braces. -/
def bracketWeight (c : UInt8) : ℤ := arrayWeight c + objectWeight c

theorem depth_bracketWeight (ts : Bytes) :
    depth bracketWeight ts = depth arrayWeight ts + depth objectWeight ts :=
  depth_add objectWeight ts

/-- The structural bytes of a value, as the search sees them: no boundary in them, one on either
side, and all brackets closed. -/
structure IsValue (ts : Bytes) : Prop where
  joined : ts.IsChain Joined
  ne_nil : ts ≠ []
  head : ∀ b ∈ ts.head?, goesOn b = false
  last : ∀ a ∈ ts.getLast?, leavesOpen a = false
  nested : Nested bracketWeight ts
  arrays : depth arrayWeight ts = 0

namespace IsValue

variable {ts ts' : Bytes} {a b : UInt8}

theorem joined_cons (h : ts.IsChain Joined) (ha : leavesOpen a = true) :
    (a :: ts).IsChain Joined :=
  List.isChain_cons.mpr ⟨fun _ _ => .inl ha, h⟩

theorem joined_append (h : ts.IsChain Joined) (h' : ts'.IsChain Joined)
    (hhead : ∀ b ∈ ts'.head?, goesOn b = true) : (ts ++ ts').IsChain Joined :=
  h.append h' fun _ _ b hb => .inr (hhead b hb)

theorem nested_of_bracketWeight (hb : bracketWeight b = 0) : Nested bracketWeight [b] := .single hb

/-- The first byte of a scalar. -/
theorem scalar (hgoes : goesOn b = false) (hopen : leavesOpen b = false) : IsValue [b] where
  joined := .singleton b
  ne_nil := List.cons_ne_nil b []
  head c hc := by
    cases hc
    exact hgoes
  last c hc := by
    cases hc
    exact hopen
  nested := by
    apply Nested.single
    revert b
    apply forall_byte
    decide +kernel
  arrays := by
    rw [depth_cons, depth_nil]
    revert b
    apply forall_byte
    decide +kernel

/-- A key before its value. -/
theorem member (h : IsValue ts) : IsValue (quote :: 0x3a :: ts) where
  joined := List.isChain_cons_cons.mpr ⟨.inr rfl, joined_cons h.joined rfl⟩
  ne_nil := List.cons_ne_nil _ _
  head c hc := by
    cases hc
    rfl
  last c hc := by
    apply h.last
    rwa [List.getLast?_cons_cons, List.getLast?_cons_of_ne_nil h.ne_nil] at hc
  nested := (nested_of_bracketWeight (by decide)).append
    ((nested_of_bracketWeight (by decide)).append h.nested)
  arrays := by
    rw [depth_cons, depth_cons, h.arrays]
    rfl

/-- Two values with a comma between them. -/
theorem comma (h : IsValue ts) (h' : IsValue ts') : IsValue (ts ++ 0x2c :: ts') where
  joined := by
    apply joined_append h.joined (joined_cons h'.joined rfl)
    intro b hb
    cases hb
    rfl
  ne_nil := List.append_ne_nil_of_left_ne_nil h.ne_nil _
  head := by
    rw [List.head?_append_of_ne_nil _ h.ne_nil]
    exact h.head
  last := by
    rw [List.getLast?_append_of_ne_nil _ (List.cons_ne_nil _ _),
      List.getLast?_cons_of_ne_nil h'.ne_nil]
    exact h'.last
  nested := h.nested.append ((nested_of_bracketWeight (by decide)).append h'.nested)
  arrays := by
    rw [depth_append, depth_cons, h.arrays, h'.arrays]
    rfl

/-- All values with commas between them. -/
theorem intercalate {l : List Bytes} (h : ∀ ts ∈ l, IsValue ts) (hne : l ≠ []) :
    IsValue ([0x2c].intercalate l) := by
  induction l with
  | nil => exact absurd rfl hne
  | cons ts l ih =>
    have hfirst := h ts List.mem_cons_self
    cases l with
    | nil => rwa [List.intercalate_singleton]
    | cons ts' l =>
      have hrest := ih (fun ts hts => h ts (List.mem_cons_of_mem _ hts)) (List.cons_ne_nil _ _)
      rw [List.intercalate_cons_cons, List.append_assoc]
      exact hfirst.comma hrest

/-- A container. -/
theorem enclose {l : List Bytes} (h : ∀ ts ∈ l, IsValue ts)
    (hbrackets : a = 0x5b ∧ b = 0x5d ∨ a = 0x7b ∧ b = 0x7d) :
    Nested bracketWeight ([0x2c].intercalate l) ∧
      IsValue (a :: [0x2c].intercalate l ++ [b]) := by
  have hinner : ([0x2c].intercalate l).IsChain Joined ∧
      Nested bracketWeight ([0x2c].intercalate l) ∧
      depth arrayWeight ([0x2c].intercalate l) = 0 := by
    by_cases hnil : l = []
    · subst hnil
      exact ⟨.nil, .nil, rfl⟩
    · have hvalue := intercalate h hnil
      exact ⟨hvalue.joined, hvalue.nested, hvalue.arrays⟩
  obtain ⟨hjoined, hnested, harrays⟩ := hinner
  refine ⟨hnested, ?_⟩
  rcases hbrackets with ⟨rfl, rfl⟩ | ⟨rfl, rfl⟩
  all_goals
    refine ⟨joined_append (joined_cons hjoined rfl) (.singleton _) ?_, List.cons_ne_nil _ _, ?_, ?_,
      hnested.enclose rfl rfl, ?_⟩
    · intro b hb
      cases hb
      rfl
    · intro b hb
      cases hb
      rfl
    · intro a ha
      rw [List.getLast?_concat] at ha
      cases ha
      rfl
    · rw [depth_append, depth_cons, harrays]
      rfl

end IsValue

/-! ## The structural bytes of a text -/

section StructuralBytes

variable (K : Kernel)

/-- The structural bytes of a text, in order. -/
def structuralBytes (s : ScanState) : Bytes → Bytes
  | [] => []
  | c :: bytes =>
    if s.isStructural K c then c :: structuralBytes (s.next K c) bytes
    else structuralBytes (s.next K c) bytes

variable {K} {s : ScanState} {pos : ℕ}

theorem structuralBytes_append (bytes bytes' : Bytes) :
    structuralBytes K s (bytes ++ bytes') =
      structuralBytes K s bytes ++ structuralBytes K (s.after K bytes) bytes' := by
  induction bytes generalizing s with
  | nil => rfl
  | cons c bytes ih =>
    simp only [List.cons_append, structuralBytes, ih, ScanState.after_cons]
    split <;> rfl

/-- They stand at the structurals. -/
theorem structurals_forall₂ (bytes : Bytes) :
    List.Forall₂ (fun i c => pos ≤ i ∧ bytes[i - pos]? = some c) (structurals K s pos bytes)
      (structuralBytes K s bytes) := by
  induction bytes generalizing s pos with
  | nil => exact .nil
  | cons c bytes ih =>
    have htail : List.Forall₂ (fun i c' => pos ≤ i ∧ (c :: bytes)[i - pos]? = some c')
        (structurals K (s.next K c) (pos + 1) bytes) (structuralBytes K (s.next K c) bytes) := by
      refine ih.imp ?_
      rintro i c' ⟨hpos, hget⟩
      refine ⟨by omega, ?_⟩
      rwa [show i - pos = i - (pos + 1) + 1 by omega, List.getElem?_cons_succ]
    rw [structurals, structuralBytes]
    split
    · exact .cons ⟨Nat.le_refl pos, by rw [Nat.sub_self, List.getElem?_cons_zero]⟩ htail
    · exact htail

theorem length_structuralBytes (bytes : Bytes) :
    (structuralBytes K s bytes).length = (structurals K s 0 bytes).length :=
  (structurals_forall₂ bytes).length_eq.symm

/-- **The parser sees the structural bytes** of a text at the indexes that it has. -/
theorem shows_of_indexes {parser : DomParser} {text : Bytes} (hlen : text.length < 2 ^ 32)
    (hbuf : text <+: parser.buf) {n : ℕ} (hn : n ≤ (structurals K .start 0 text).length)
    (hcount : parser.nStructuralIndexes.toNat = n)
    (hindexes : parser.structuralIndexes.take n =
      ((structurals K .start 0 text).take n).map (BitVec.ofNat 32)) :
    parser.Shows ((structuralBytes K .start text).take n) := by
  have hbytes := @structurals_forall₂ K .start 0 text
  have hlength := @length_structuralBytes K .start text
  constructor
  · rw [hcount, List.length_take, hlength, Nat.min_eq_left hn]
  · intro i hi
    rw [List.length_take] at hi
    have hget := (List.forall₂_iff_get.mp hbytes).2 i (by omega) (by omega)
    rw [List.get_eq_getElem, List.get_eq_getElem, Nat.sub_zero] at hget
    generalize hplace : (structurals K .start 0 text)[i] = place at hget
    have hlt : place < text.length := (List.getElem?_eq_some_iff.mp hget.2).1
    have hi' : i < n := by omega
    have hidx : parser.structuralIndexes[i]? = some (BitVec.ofNat 32 place) := by
      rw [← List.getElem?_take_of_lt hi', hindexes, List.getElem?_map,
        List.getElem?_take_of_lt hi', List.getElem?_eq_getElem (by omega), hplace]
      rfl
    have hplace' : (BitVec.ofNat 32 place).toNat = place := by
      rw [BitVec.toNat_ofNat, Nat.mod_eq_of_lt (by omega)]
    obtain ⟨rest, hrest⟩ := hbuf
    rw [structuralByte, hidx]
    simp only [Option.bind_eq_bind, Option.bind_some, hplace']
    rw [← hrest, List.getElem?_append_left hlt, hget.2, List.getElem_take]

end StructuralBytes

/-! ## Documents, one after the other -/

theorem forall_fieldTokens {P : Bytes → Prop} {fields : List (Except ErrorCode Bytes × Element)}
    (h : ∀ field ∈ fields, P (quote :: 0x3a :: tokens field.2)) :
    ∀ ts ∈ fieldTokens fields, P ts := by
  induction fields with
  | nil => exact fun ts hts => nomatch hts
  | cons field fields ih =>
    rw [fieldTokens, List.forall_mem_cons]
    exact ⟨h field List.mem_cons_self, ih fun f hf => h f (List.mem_cons_of_mem _ hf)⟩

theorem forall_childTokens {P : Bytes → Prop} {children : List Element}
    (h : ∀ child ∈ children, P (tokens child)) : ∀ ts ∈ childTokens children, P ts := by
  induction children with
  | nil => exact fun ts hts => nomatch hts
  | cons child children ih =>
    rw [childTokens, List.forall_mem_cons]
    exact ⟨h child List.mem_cons_self, ih fun c hc => h c (List.mem_cons_of_mem _ hc)⟩

/-- The first byte of a scalar with a type is no operator. -/
theorem tokens_scalar {t : Token} (ht : t.type ≠ .unknown) :
    ∃ b, tokens (.scalar t) = [b] ∧ goesOn b = false ∧ leavesOpen b = false := by
  obtain ⟨text, hcontainer⟩ := t
  cases text with
  | nil => exact absurd rfl ht
  | cons b text =>
    have hbyte : ∀ b, typeOfByte b ≠ .unknown → typeOfByte b ≠ .object ∧ typeOfByte b ≠ .array →
        goesOn b = false ∧ leavesOpen b = false := forall_byte (by decide +kernel)
    exact ⟨b, rfl, hbyte b ht hcontainer⟩

/-- **The structural bytes of a complete document.** -/
theorem Complete.isValue {doc : Element} (h : Complete doc) : IsValue (tokens doc) := by
  induction h with
  | object _ ih =>
    exact (IsValue.enclose (forall_fieldTokens fun field hf => (ih field hf).member)
      (.inr ⟨rfl, rfl⟩)).2
  | array _ ih =>
    exact (IsValue.enclose (forall_childTokens ih) (.inl ⟨rfl, rfl⟩)).2
  | scalar ht =>
    obtain ⟨b, hb, hgoes, hopen⟩ := tokens_scalar ht
    rw [hb]
    exact .scalar hgoes hopen

/-- **A truncated document** leaves a bracket open. -/
theorem Truncated.depth_pos {ts : Bytes} (h : Truncated ts) : 0 < depth bracketWeight ts := by
  obtain ⟨doc, hdoc, hpart, hne, hproper⟩ := h
  cases hdoc with
  | object hfields =>
    obtain ⟨hnested, -⟩ := IsValue.enclose
      (forall_fieldTokens fun field hf => (hfields field hf).isValue.member) (.inr ⟨rfl, rfl⟩)
    exact hnested.depth_pos_of_isPrefix rfl hpart hne hproper
  | array hchildren =>
    obtain ⟨hnested, -⟩ := IsValue.enclose
      (forall_childTokens fun child hc => (hchildren child hc).isValue) (.inl ⟨rfl, rfl⟩)
    exact hnested.depth_pos_of_isPrefix rfl hpart hne hproper
  | scalar ht =>
    -- one byte has no proper part
    obtain ⟨b, hb, -⟩ := tokens_scalar ht
    rw [hb] at hpart hproper
    rcases List.prefix_cons_iff.mp hpart with rfl | ⟨rest, rfl, hrest⟩
    · exact absurd rfl hne
    · rw [List.prefix_nil.mp hrest] at hproper
      exact absurd rfl hproper

/-- No document ends with a byte that leaves something open. -/
theorem leavesOpen_getLast_documents {docs : List Element} (hdocs : ∀ doc ∈ docs, Complete doc) :
    ∀ a ∈ (docs.flatMap tokens).getLast?, leavesOpen a = false := by
  rcases docs.eq_nil_or_concat with rfl | ⟨docs, doc, rfl⟩
  · exact fun a ha => nomatch ha
  · have hdoc := (hdocs doc (by simp)).isValue
    rw [List.concat_eq_append, List.flatMap_append, List.flatMap_singleton,
      List.getLast?_append_of_ne_nil _ hdoc.ne_nil]
    exact hdoc.last

/-- **Complete documents are kept, and a truncated one behind them is not.** -/
theorem findNextDocumentIndex_eq {parser : DomParser} {docs : List Element} {rest : Bytes}
    (h : parser.Shows (docs.flatMap tokens ++ rest)) (hdocs : ∀ doc ∈ docs, Complete doc)
    (hrest : rest = [] ∨ Truncated rest) :
    parser.findNextDocumentIndex = some (BitVec.ofNat 32 (docs.flatMap tokens).length) := by
  have hall := h.nStructuralIndexes_eq
  -- the search stops before the last thing there is: a document, or a part of one
  rcases hrest with rfl | htruncated
  · rw [List.append_nil] at h hall
    rcases docs.eq_nil_or_concat with rfl | ⟨docs, doc, rfl⟩
    · rw [findNextDocumentIndex, hall]
      rfl
    · have hdoc := (hdocs doc (by simp)).isValue
      have hothers := @leavesOpen_getLast_documents docs fun d hd => hdocs d (by simp [hd])
      have hsplit : (docs.concat doc).flatMap tokens = docs.flatMap tokens ++ tokens doc := by
        rw [List.concat_eq_append, List.flatMap_append, List.flatMap_singleton]
      have hdepth := hdoc.nested.depth_eq_zero
      rw [depth_bracketWeight, hdoc.arrays, Int.zero_add] at hdepth
      rw [hsplit] at h hall ⊢
      rw [findNextDocumentIndex_of_boundary h hdoc.ne_nil hdoc.joined ?_,
        if_pos ⟨hdoc.arrays, hdepth⟩, hall]
      exact fun a ha b hb => not_joined (hothers a ha) (hdoc.head b hb)
  · have hpos := htruncated.depth_pos
    obtain ⟨doc, hdoc, hpart, hne, -⟩ := htruncated
    have hvalue := hdoc.isValue
    have hopen : ¬ (depth arrayWeight rest = 0 ∧ depth objectWeight rest = 0) := by
      rintro ⟨harrays, hobjects⟩
      rw [depth_bracketWeight, harrays, hobjects] at hpos
      exact absurd hpos (by decide)
    have hjoined : rest.IsChain Joined := by
      obtain ⟨others, hsplit⟩ := hpart
      exact List.IsChain.left_of_append (hsplit ▸ hvalue.joined)
    rw [findNextDocumentIndex_of_boundary h hne hjoined ?_, if_neg hopen]
    intro a ha b hb
    have hhead : b ∈ (tokens doc).head? := by
      obtain ⟨rest', hsplit⟩ := hpart
      rw [← hsplit, List.head?_append_of_ne_nil _ hne]
      exact hb
    exact not_joined (leavesOpen_getLast_documents hdocs a ha) (hvalue.head b hhead)

end Dataprint.Stage1
