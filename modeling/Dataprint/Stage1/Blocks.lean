import Dataprint.Foundations.BitScan
import Dataprint.Simdjson

/-!
# The Scanner of simdjson

Stage 1 of simdjson (`src/simdjson.cpp`) looks at 64 bytes at a time.  `JsonScanner.next` computes
for a block which of its bytes are structural: brackets, braces, colons and commas, and the first
byte of every scalar, all of them outside of strings.

- `ScanState` is the same scan from one byte to the next;
- `JsonScanner.next_spec` says that a block gives what its bytes give one by one, and leaves the
  scanner in the state that they lead to.
-/

namespace Dataprint.Stage1

open Foundations

/-- `simd8x64<uint8_t>`. -/
abbrev Simd8x64 := Vector UInt8 64

/-- What is true of the bytes up to 255 is true of all. -/
theorem forall_byte {P : UInt8 → Prop} (h : ∀ i : Fin 256, P (UInt8.ofNat i)) (b : UInt8) :
    P b := by
  have hb := h ⟨b.toNat, b.toNat_lt⟩
  rwa [UInt8.ofNat_toNat] at hb

/-- A bit for each byte. -/
def mask (block : Simd8x64) (p : UInt8 → Bool) : U64 :=
  (BitVec.ofBoolListLE (block.toList.map p)).setWidth 64

theorem getLsbD_mask (block : Simd8x64) (p : UInt8 → Bool) {i : ℕ} (hi : i < 64) :
    (mask block p).getLsbD i = p block[i] := by
  rw [mask, BitVec.getLsbD_setWidth, BitVec.getLsbD_ofBoolListLE]
  simp [hi]

/-! ## Kernels -/

/-- What the implementations of simdjson for different processors do differently. -/
structure Kernel where
  prefixXor : U64 → U64
  whitespace : UInt8 → Bool
  op : UInt8 → Bool
  /-- `sizeof(simd8<uint8_t>)` -/
  simdSize : ℕ
  gtBits : UInt8 → UInt8 → UInt8
  /-- `!SIMDJSON_SKIP_BACKSLASH_SHORT_CIRCUIT` -/
  shortCircuit : Bool
  /-- `SIMDJSON_PREFER_REVERSE_BITS` -/
  reverseBits : Bool
  /-- `STEP_SIZE` is 128, and not 64 -/
  twoBlocks : Bool

/-- `json_character_block::scalar`. -/
def Kernel.scalar (K : Kernel) (c : UInt8) : Bool := !(K.op c || K.whitespace c)

/-- `_mm256_shuffle_epi8`, for a table that is repeated. -/
def shuffle (table : Vector UInt8 16) (c : UInt8) : UInt8 :=
  if c.toNat < 0x80 then table[c.toNat % 16] else 0

/-- `saturating_sub`, of a byte. -/
def saturatingSub (a b : UInt8) : UInt8 := if b ≤ a then a - b else 0

/-- `whitespace_table` of the x64 kernels. -/
def whitespaceTable : Vector UInt8 16 :=
  #v[0x20, 100, 100, 100, 17, 100, 113, 2, 100, 0x09, 0x0a, 112, 100, 0x0d, 100, 100]

/-- `op_table` of the x64 kernels. -/
def opTable : Vector UInt8 16 := #v[0, 0, 0, 0, 0, 0, 0, 0, 0, 0, 0x3a, 0x7b, 0x2c, 0x7d, 0, 0]

/-- The kernel `haswell`.  With `| 0x20`, two control characters count as operators. -/
def haswell : Kernel where
  prefixXor bitmask := clmul bitmask (BitVec.allOnes 64)
  whitespace c := c == shuffle whitespaceTable c
  op c := (c ||| 0x20) == shuffle opTable c
  simdSize := 32
  gtBits := saturatingSub
  shortCircuit := true
  reverseBits := false
  twoBlocks := true

/-- `table1` of the kernel `arm64`. -/
def table1 : Vector UInt8 16 := #v[16, 0, 0, 0, 0, 0, 0, 0, 0, 8, 12, 1, 2, 9, 0, 0]

/-- `table2` of the kernel `arm64`. -/
def table2 : Vector UInt8 16 := #v[8, 0, 18, 4, 0, 1, 0, 1, 0, 0, 0, 3, 2, 1, 0, 0]

/-- The class of a byte in the kernel `arm64`. -/
def armClass (c : UInt8) : UInt8 :=
  have hhigh : c.toNat / 16 < 16 := Nat.div_lt_of_lt_mul c.toNat_lt
  table1[c.toNat % 16] &&& table2[c.toNat / 16]

/-- The kernel `arm64`. -/
def arm64 : Kernel where
  prefixXor bitmask := Foundations.prefixXor 6 bitmask
  whitespace c := armClass c &&& 0x18 != 0
  op c := armClass c &&& 0x7 != 0
  simdSize := 16
  gtBits a b := if b < a then 0xff else 0
  shortCircuit := false
  reverseBits := true
  twoBlocks := false

theorem saturatingSub_ne_zero {a b : UInt8} : saturatingSub a b ≠ 0 ↔ b < a := by
  rw [saturatingSub, UInt8.lt_iff_toNat_lt, ne_eq, ← UInt8.toNat_inj]
  split
  case isTrue hle =>
    rw [UInt8.toNat_sub_of_le _ _ hle]
    simp [Nat.sub_eq_zero_iff_le]
  case isFalse hle =>
    rw [UInt8.le_iff_toNat_le, Nat.not_le] at hle
    simp [hle.le]

/-- White space of JSON. -/
def isWhitespace (c : UInt8) : Bool := c == 0x20 || c == 0x09 || c == 0x0a || c == 0x0d

/-- Brackets, braces, colons and commas. -/
def isOperator (c : UInt8) : Bool :=
  c == 0x7b || c == 0x7d || c == 0x5b || c == 0x5d || c == 0x3a || c == 0x2c

/-- Kernels take form feeds, substitutes and some bytes beyond ASCII for operators, each its own. -/
def isPlain (c : UInt8) : Bool := c < 0x80 && c != 0x0c && c != 0x1a

/-- What the vector instructions of a kernel have to do. -/
structure Kernel.Lawful (K : Kernel) : Prop where
  prefixXor : ∀ (x : U64) (i : ℕ), i < 64 → (K.prefixXor x).getLsbD i = parity x.getLsbD (i + 1)
  gtBits : ∀ a b : UInt8, K.gtBits a b ≠ 0 ↔ b < a
  simdSize : 3 ≤ K.simdSize ∧ K.simdSize ∣ 64
  whitespace : ∀ c, K.whitespace c = isWhitespace c
  op : ∀ c, isPlain c = true → K.op c = isOperator c

theorem haswell_lawful : haswell.Lawful where
  prefixXor x _ hi := getLsbD_clmul_allOnes x hi
  gtBits _ _ := saturatingSub_ne_zero
  simdSize := by decide
  whitespace := forall_byte (by decide +kernel)
  op := forall_byte (by decide +kernel)

theorem arm64_lawful : arm64.Lawful where
  prefixXor x _ hi := getLsbD_prefixXor (by decide) x hi
  gtBits a b := by
    show (if b < a then 0xff else 0) ≠ (0 : UInt8) ↔ b < a
    split
    case isTrue hlt => simp [hlt]
    case isFalse hlt => simp [hlt]
  simdSize := by decide
  whitespace := forall_byte (by decide +kernel)
  op := forall_byte (by decide +kernel)

/-- The kernels whose code is modelled. -/
def kernels : List Kernel := [haswell, arm64]

theorem lawful_of_mem {K : Kernel} (h : K ∈ kernels) : K.Lawful := by
  rcases List.mem_pair.mp h with rfl | rfl
  · exact haswell_lawful
  · exact arm64_lawful

/-- White space is neither an operator nor part of a scalar. -/
theorem Kernel.Lawful.not_op_of_whitespace {K : Kernel} (hK : K.Lawful) {c : UInt8}
    (hc : isWhitespace c = true) : K.op c = false ∧ K.scalar c = false := by
  have hop : K.op c = false := by
    simp only [isWhitespace, Bool.or_eq_true, beq_iff_eq] at hc
    rcases hc with ((rfl | rfl) | rfl) | rfl
    all_goals exact hK.op _ (by decide)
  refine ⟨hop, ?_⟩
  rw [Kernel.scalar, hK.whitespace, hc, Bool.or_true]
  rfl

/-! ## Byte by byte -/

def backslash : UInt8 := 0x5c

def quote : UInt8 := 0x22

/-- What the bytes so far say about the next one. -/
structure ScanState where
  escaped : Bool
  inString : Bool
  afterScalar : Bool
  deriving DecidableEq, Repr

namespace ScanState

/-- At the start of a text. -/
def start : ScanState := ⟨false, false, false⟩

/-- The byte opens or closes a string. -/
def isQuote (s : ScanState) (c : UInt8) : Bool := c == quote && !s.escaped

variable (K : Kernel)

/-- One byte further. -/
def next (s : ScanState) (c : UInt8) : ScanState where
  escaped := c == backslash && !s.escaped
  inString := s.inString ^^ s.isQuote c
  afterScalar := K.scalar c && !s.isQuote c

/-- The byte is structural. -/
def isStructural (s : ScanState) (c : UInt8) : Bool :=
  (K.op c || K.scalar c && !s.afterScalar) && !s.inString

/-- The byte is a control character in a string. -/
def isControl (s : ScanState) (c : UInt8) : Bool := c ≤ 0x1f && (s.inString ^^ s.isQuote c)

/-- A number of bytes further. -/
def after (s : ScanState) (bytes : Bytes) : ScanState := bytes.foldl (next K) s

@[simp] theorem after_nil (s : ScanState) : s.after K [] = s := rfl

@[simp] theorem after_cons (s : ScanState) (c : UInt8) (bytes : Bytes) :
    s.after K (c :: bytes) = (s.next K c).after K bytes := rfl

theorem after_append (s : ScanState) (bytes bytes' : Bytes) :
    s.after K (bytes ++ bytes') = (s.after K bytes).after K bytes' := List.foldl_append

/-- The state before the byte at `i`. -/
def atByte (s : ScanState) (block : Simd8x64) (i : ℕ) : ScanState := s.after K (block.toList.take i)

theorem atByte_zero (s : ScanState) (block : Simd8x64) : s.atByte K block 0 = s := rfl

theorem take_succ_block (block : Simd8x64) {i : ℕ} (hi : i < 64) :
    block.toList.take (i + 1) = block.toList.take i ++ [block[i]] := by
  rw [List.take_succ_eq_append_getElem (by simpa using hi)]
  simp

theorem atByte_succ (s : ScanState) (block : Simd8x64) {i : ℕ} (hi : i < 64) :
    s.atByte K block (i + 1) = (s.atByte K block i).next K block[i] := by
  rw [atByte, take_succ_block block hi, after_append]
  rfl

theorem atByte_length (s : ScanState) (block : Simd8x64) :
    s.atByte K block 64 = s.after K block.toList := by
  rw [atByte, List.take_of_length_le (by simp)]

section WhiteSpace

variable {K} {c : UInt8}

theorem isQuote_of_isWhitespace (hc : isWhitespace c = true) (s : ScanState) :
    s.isQuote c = false := by
  have hne : (c == quote) = false := by
    rw [beq_eq_false_iff_ne]
    rintro rfl
    cases hc
  rw [isQuote, hne, Bool.false_and]

/-- White space is nowhere structural. -/
theorem isStructural_of_isWhitespace (hK : K.Lawful) (hc : isWhitespace c = true) (s : ScanState) :
    s.isStructural K c = false := by
  obtain ⟨hop, hscalar⟩ := hK.not_op_of_whitespace hc
  rw [isStructural, hop, hscalar, Bool.false_and, Bool.or_false, Bool.false_and]

/-- It opens and closes nothing. -/
theorem inString_next_of_isWhitespace (hc : isWhitespace c = true) (s : ScanState) :
    (s.next K c).inString = s.inString := by
  rw [next, isQuote_of_isWhitespace hc, Bool.xor_false]

theorem isControl_of_isWhitespace (hc : isWhitespace c = true) {s : ScanState}
    (hs : s.inString = false) : s.isControl c = false := by
  rw [isControl, hs, isQuote_of_isWhitespace hc, Bool.xor_false, Bool.and_false]

end WhiteSpace

end ScanState

/-! ## Escapes -/

/-- A word with one bit. -/
def flag (b : Bool) : U64 := if b then 1 else 0

theorem getLsbD_flag_zero (b : Bool) : (flag b).getLsbD 0 = b := by cases b <;> rfl

theorem getLsbD_flag_succ (b : Bool) (i : ℕ) : (flag b).getLsbD (i + 1) = false := by
  cases b <;> simp [flag]

/-- The top bit of a word, on its own. -/
theorem shiftRight_63 (x : U64) : x >>> 63 = flag (x.getLsbD 63) := by
  apply BitVec.eq_of_getLsbD_eq
  intro i _
  rw [BitVec.getLsbD_ushiftRight]
  cases i with
  | zero => rw [getLsbD_flag_zero]
  | succ i =>
    rw [getLsbD_flag_succ]
    exact BitVec.getLsbD_of_ge _ _ (by omega)

def ODD_BITS : U64 := 0xAAAAAAAAAAAAAAAA

/-- `json_escape_scanner::next_escape_and_terminal_code`. -/
def nextEscapeAndTerminalCode (potentialEscape : U64) : U64 :=
  let maybeEscaped := potentialEscape <<< 1
  let maybeEscapedAndOddBits := maybeEscaped ||| ODD_BITS
  let evenSeriesCodesAndOddBits := maybeEscapedAndOddBits - potentialEscape
  evenSeriesCodesAndOddBits ^^^ ODD_BITS

/-- `json_escape_scanner`. -/
structure JsonEscapeScanner where
  nextIsEscaped : U64

/-- `json_escape_scanner::next`: the escaped characters and the escapes. -/
def JsonEscapeScanner.next (K : Kernel) (scanner : JsonEscapeScanner) (backslash : U64) :
    (U64 × U64) × JsonEscapeScanner :=
  -- no backslash: nothing is an escape, and only the first byte may be escaped
  if K.shortCircuit && backslash == 0 then
    ((scanner.nextIsEscaped, 0), ⟨0⟩)
  else
    let escapeAndTerminalCode := nextEscapeAndTerminalCode (backslash &&& ~~~scanner.nextIsEscaped)
    let escaped := escapeAndTerminalCode ^^^ (backslash ||| scanner.nextIsEscaped)
    let escape := escapeAndTerminalCode &&& backslash
    ((escaped, escape), ⟨escape >>> 63⟩)

/-- The bits of `nextEscapeAndTerminalCode`. -/
theorem getLsbD_nextEscapeAndTerminalCode (p : U64) {i : ℕ} (hi : i < 64) :
    (nextEscapeAndTerminalCode p).getLsbD i = (escapedAt p.getLsbD i ^^ p.getLsbD i) := by
  apply getLsbD_escapeCode _ p hi
  decide

section Escapes

variable {K : Kernel} {s : ScanState} {block : Simd8x64}

/-- A byte may be an escape if it is a backslash that the block before does not escape. -/
def potentialEscape (s : ScanState) (block : Simd8x64) : U64 :=
  mask block (· == backslash) &&& ~~~flag s.escaped

theorem getLsbD_potentialEscape {i : ℕ} (hi : i < 64) :
    (potentialEscape s block).getLsbD i =
      (block[i] == backslash && !(decide (i = 0) && s.escaped)) := by
  rw [potentialEscape, BitVec.getLsbD_and, getLsbD_mask block _ hi, BitVec.getLsbD_not,
    decide_eq_true hi, Bool.true_and]
  cases i with
  | zero => simp only [getLsbD_flag_zero, decide_true, Bool.true_and]
  | succ i => simp [getLsbD_flag_succ]

/-- Escapes are counted anew in each block. -/
theorem atByte_escaped {i : ℕ} (hi : i ≤ 64) :
    (s.atByte K block i).escaped =
      (escapedAt (potentialEscape s block).getLsbD i || (decide (i = 0) && s.escaped)) := by
  -- on the byte: it is escaped if the one before is an escape that is not escaped itself
  induction i with
  | zero => simp [ScanState.atByte_zero]
  | succ i ih =>
    rw [ScanState.atByte_succ K s block hi, ScanState.next, ih (by omega), escapedAt_succ,
      getLsbD_potentialEscape hi]
    cases i with
    | zero => simp
    | succ i => simp

/-- Without backslashes only the first byte may be escaped. -/
theorem atByte_escaped_of_mask_eq_zero (h : mask block (· == backslash) = 0) {i : ℕ}
    (hi : i ≤ 64) : (s.atByte K block i).escaped = (decide (i = 0) && s.escaped) := by
  rw [atByte_escaped hi]
  cases i with
  | zero => simp
  | succ i =>
    have hnone : (potentialEscape s block).getLsbD i = false := by
      rw [potentialEscape, h]
      simp
    simp [escapedAt_succ, hnone]

/-- **Escaped bytes**, of a block and of the scan byte by byte. -/
theorem JsonEscapeScanner.next_spec (K : Kernel) (s : ScanState) (block : Simd8x64) :
    (∀ i < 64, (JsonEscapeScanner.next K ⟨flag s.escaped⟩ (mask block (· == backslash))).1.1.getLsbD
      i = (s.atByte K block i).escaped) ∧
    (JsonEscapeScanner.next K ⟨flag s.escaped⟩ (mask block (· == backslash))).2 =
      ⟨flag (s.after K block.toList).escaped⟩ := by
  rw [← ScanState.atByte_length]
  unfold JsonEscapeScanner.next
  split
  -- the short circuit
  case isTrue hshort =>
    have hzero : mask block (· == backslash) = 0 := by
      rw [Bool.and_eq_true, beq_iff_eq] at hshort
      exact hshort.2
    constructor
    · intro i hi
      rw [atByte_escaped_of_mask_eq_zero hzero hi.le]
      cases i with
      | zero => exact getLsbD_flag_zero _
      | succ i => exact getLsbD_flag_succ _ i
    · rw [atByte_escaped_of_mask_eq_zero hzero (Nat.le_refl 64)]
      rfl
  case isFalse =>
    constructor
    · intro i hi
      show (nextEscapeAndTerminalCode (potentialEscape s block) ^^^
        (mask block (· == backslash) ||| flag s.escaped)).getLsbD i = _
      rw [BitVec.getLsbD_xor, BitVec.getLsbD_or, getLsbD_nextEscapeAndTerminalCode _ hi,
        getLsbD_mask block _ hi, atByte_escaped hi.le, getLsbD_potentialEscape hi]
      -- the flag of the block before is about the first byte only
      cases i with
      | zero =>
        rw [getLsbD_flag_zero]
        cases block[0] == backslash <;> cases s.escaped <;> rfl
      | succ i =>
        rw [getLsbD_flag_succ]
        cases block[i + 1] == backslash <;> simp
    -- the last byte: an escape there is for the block behind
    · show JsonEscapeScanner.mk ((nextEscapeAndTerminalCode (potentialEscape s block) &&&
        mask block (· == backslash)) >>> 63) = _
      have hp := @getLsbD_potentialEscape s block 63 (by decide)
      have hlast := escapedAt_succ (potentialEscape s block).getLsbD 63
      rw [shiftRight_63, BitVec.getLsbD_and, getLsbD_nextEscapeAndTerminalCode _ (by decide),
        getLsbD_mask block _ (by decide), atByte_escaped (Nat.le_refl 64), hlast, hp]
      generalize escapedAt (potentialEscape s block).getLsbD 63 = e
      cases block[63] == backslash <;> cases e <;> rfl

end Escapes

/-! ## Strings -/

/-- `json_string_block`. -/
structure JsonStringBlock where
  escaped : U64
  quote : U64
  inString : U64

namespace JsonStringBlock

def nonQuoteInsideString (block : JsonStringBlock) (mask : U64) : U64 := mask &&& block.inString

/-- The tail of strings: everything but the quotes that open them. -/
def stringTail (block : JsonStringBlock) : U64 := block.inString ^^^ block.quote

end JsonStringBlock

/-- `json_string_scanner`. -/
structure JsonStringScanner where
  escapeScanner : JsonEscapeScanner
  prevInString : U64

/-- `json_string_scanner::next`. -/
def JsonStringScanner.next (K : Kernel) (scanner : JsonStringScanner) (block : Simd8x64) :
    JsonStringBlock × JsonStringScanner :=
  let backslash := mask block (· == backslash)
  let (codes, escapeScanner) := scanner.escapeScanner.next K backslash
  let escaped := codes.1
  let quote := mask block (· == quote) &&& ~~~escaped
  -- each quote flips its own bit and all behind it
  let inString := K.prefixXor quote ^^^ scanner.prevInString
  ({ escaped := escaped, quote := quote, inString := inString },
    { escapeScanner := escapeScanner, prevInString := inString.sshiftRight 63 })

/-- All bits, or none. -/
def flags (b : Bool) : U64 := if b then BitVec.allOnes 64 else 0

theorem getLsbD_flags (b : Bool) {i : ℕ} (hi : i < 64) : (flags b).getLsbD i = b := by
  cases b with
  | false => exact BitVec.getLsbD_zero
  | true =>
    rw [flags, if_pos rfl, BitVec.getLsbD_allOnes]
    exact decide_eq_true hi

/-- The sign, in all bits. -/
theorem sshiftRight_63 (x : U64) : x.sshiftRight 63 = flags (x.getLsbD 63) := by
  apply BitVec.eq_of_getLsbD_eq
  intro i hi
  rw [getLsbD_flags _ hi, BitVec.getLsbD_sshiftRight, BitVec.msb_eq_getLsbD_last]
  cases i with
  | zero => rfl
  | succ i =>
    rw [if_neg (by omega), decide_eq_false (by omega)]
    rfl

section Strings

variable {K : Kernel} {s : ScanState} {block : Simd8x64}

/-- A string is entered and left at quotes. -/
theorem atByte_inString {quotes : U64}
    (hquotes : ∀ i (hi : i < 64), quotes.getLsbD i = (s.atByte K block i).isQuote block[i])
    {i : ℕ} (hi : i ≤ 64) :
    (s.atByte K block i).inString = (parity quotes.getLsbD i ^^ s.inString) := by
  induction i with
  | zero => simp [ScanState.atByte_zero]
  | succ i ih =>
    rw [ScanState.atByte_succ K s block hi, ScanState.next, ih (by omega), parity_succ,
      hquotes i hi, Bool.xor_assoc, Bool.xor_assoc, Bool.xor_comm s.inString]

/-- The scanner of strings stands where the scan does. -/
structure JsonStringScanner.Represents (scanner : JsonStringScanner) (s : ScanState) : Prop where
  escapes : scanner.escapeScanner = ⟨flag s.escaped⟩
  strings : scanner.prevInString = flags s.inString

/-- **Quotes and strings**, of a block and of the scan byte by byte.  The bit for a string is set
from the quote that opens it to the byte before the one that closes it. -/
theorem JsonStringScanner.Represents.next (hK : K.Lawful) {scanner : JsonStringScanner}
    (h : scanner.Represents s) (block : Simd8x64) :
    (∀ i (hi : i < 64), (scanner.next K block).1.quote.getLsbD i =
        (s.atByte K block i).isQuote block[i]) ∧
      (∀ i < 64, (scanner.next K block).1.inString.getLsbD i =
        (s.atByte K block (i + 1)).inString) ∧
      (scanner.next K block).2.Represents (s.after K block.toList) := by
  obtain ⟨hescaped, hnext⟩ := JsonEscapeScanner.next_spec K s block
  have hquotes : ∀ i (hi : i < 64), (scanner.next K block).1.quote.getLsbD i =
      (s.atByte K block i).isQuote block[i] := by
    intro i hi
    show (mask block (· == quote) &&& ~~~(scanner.escapeScanner.next K _).1.1).getLsbD i = _
    rw [h.escapes, BitVec.getLsbD_and, BitVec.getLsbD_not, getLsbD_mask block _ hi, hescaped i hi,
      decide_eq_true hi, Bool.true_and]
    rfl
  have hstrings : ∀ i < 64, (scanner.next K block).1.inString.getLsbD i =
      (s.atByte K block (i + 1)).inString := by
    intro i hi
    show (K.prefixXor (scanner.next K block).1.quote ^^^ scanner.prevInString).getLsbD i = _
    rw [h.strings, BitVec.getLsbD_xor, hK.prefixXor _ i hi, getLsbD_flags _ hi,
      atByte_inString hquotes hi]
  refine ⟨hquotes, hstrings, ?_, ?_⟩
  · show (scanner.escapeScanner.next K _).2 = _
    rw [h.escapes]
    exact hnext
  · show (scanner.next K block).1.inString.sshiftRight 63 = _
    rw [sshiftRight_63, hstrings 63 (by decide), ScanState.atByte_length]

end Strings

/-! ## Structural bytes -/

/-- `json_character_block`. -/
structure JsonCharacterBlock where
  whitespace : U64
  op : U64

/-- `json_character_block::classify`. -/
def JsonCharacterBlock.classify (K : Kernel) (block : Simd8x64) : JsonCharacterBlock where
  whitespace := mask block K.whitespace
  op := mask block K.op

def JsonCharacterBlock.scalar (characters : JsonCharacterBlock) : U64 :=
  ~~~(characters.op ||| characters.whitespace)

/-- `json_block`. -/
structure JsonBlock where
  string : JsonStringBlock
  characters : JsonCharacterBlock
  followsPotentialNonquoteScalar : U64

namespace JsonBlock

def potentialScalarStart (block : JsonBlock) : U64 :=
  block.characters.scalar &&& ~~~block.followsPotentialNonquoteScalar

def potentialStructuralStart (block : JsonBlock) : U64 :=
  block.characters.op ||| block.potentialScalarStart

def structuralStart (block : JsonBlock) : U64 :=
  block.potentialStructuralStart &&& ~~~block.string.stringTail

end JsonBlock

/-- `json_scanner`. -/
structure JsonScanner where
  prevScalar : U64
  stringScanner : JsonStringScanner

/-- `follows`: the bytes behind a match, and whether the next block starts with one. -/
def follows (hit overflow : U64) : U64 × U64 := (hit <<< 1 ||| overflow, hit >>> 63)

/-- `json_scanner::next`. -/
def JsonScanner.next (K : Kernel) (scanner : JsonScanner) (block : Simd8x64) :
    JsonBlock × JsonScanner :=
  let (strings, stringScanner) := scanner.stringScanner.next K block
  let characters := JsonCharacterBlock.classify K block
  let nonquoteScalar := characters.scalar &&& ~~~strings.quote
  let (followsNonquoteScalar, prevScalar) := follows nonquoteScalar scanner.prevScalar
  ({ string := strings, characters := characters,
      followsPotentialNonquoteScalar := followsNonquoteScalar },
    { prevScalar := prevScalar, stringScanner := stringScanner })

/-- `json_scanner` at the start of a text. -/
def JsonScanner.start : JsonScanner := ⟨0, ⟨⟨0⟩, 0⟩⟩

section Structurals

variable {K : Kernel} {s : ScanState} {scanner : JsonScanner}

/-- The scanner stands where the scan does. -/
structure JsonScanner.Represents (scanner : JsonScanner) (s : ScanState) : Prop where
  scalars : scanner.prevScalar = flag s.afterScalar
  strings : scanner.stringScanner.Represents s

theorem JsonScanner.start_represents : JsonScanner.start.Represents ScanState.start :=
  ⟨rfl, rfl, rfl⟩

theorem getLsbD_scalar (block : Simd8x64) {i : ℕ} (hi : i < 64) :
    (JsonCharacterBlock.classify K block).scalar.getLsbD i = K.scalar block[i] := by
  rw [JsonCharacterBlock.scalar, BitVec.getLsbD_not, BitVec.getLsbD_or,
    JsonCharacterBlock.classify, getLsbD_mask block _ hi, getLsbD_mask block _ hi,
    decide_eq_true hi, Bool.true_and]
  rfl

/-- Scalars that are no quotes. -/
theorem getLsbD_nonquoteScalar (hK : K.Lawful) (h : scanner.Represents s) (block : Simd8x64)
    {i : ℕ} (hi : i < 64) :
    ((JsonCharacterBlock.classify K block).scalar &&&
      ~~~(scanner.stringScanner.next K block).1.quote).getLsbD i =
        (s.atByte K block (i + 1)).afterScalar := by
  obtain ⟨hquotes, -, -⟩ := h.strings.next hK block
  rw [BitVec.getLsbD_and, getLsbD_scalar block hi, BitVec.getLsbD_not, hquotes i hi,
    decide_eq_true hi, Bool.true_and, ScanState.atByte_succ K s block hi]
  rfl

/-- What a block says about the byte before. -/
theorem getLsbD_follows (hK : K.Lawful) (h : scanner.Represents s) (block : Simd8x64)
    {i : ℕ} (hi : i < 64) :
    (scanner.next K block).1.followsPotentialNonquoteScalar.getLsbD i =
      (s.atByte K block i).afterScalar := by
  show (((JsonCharacterBlock.classify K block).scalar &&&
    ~~~(scanner.stringScanner.next K block).1.quote) <<< 1 ||| scanner.prevScalar).getLsbD i = _
  rw [BitVec.getLsbD_or, getLsbD_shiftLeft_one _ hi, h.scalars]
  cases i with
  | zero =>
    rw [getLsbD_flag_zero]
    rfl
  | succ i =>
    rw [precededBy, getLsbD_flag_succ, Bool.or_false, getLsbD_nonquoteScalar hK h block (by omega)]

/-- **A block is scanned as its bytes are, one by one**: the same ones are structural, the same ones
are inside of a string, and the scanner ends in the state they lead to. -/
theorem JsonScanner.Represents.next (hK : K.Lawful) (h : scanner.Represents s)
    (block : Simd8x64) :
    (∀ i (hi : i < 64), (scanner.next K block).1.structuralStart.getLsbD i =
        (s.atByte K block i).isStructural K block[i]) ∧
      (∀ i (hi : i < 64),
        ((scanner.next K block).1.string.nonQuoteInsideString (mask block (· ≤ 0x1f))).getLsbD i =
          (s.atByte K block i).isControl block[i]) ∧
      (scanner.next K block).2.Represents (s.after K block.toList) := by
  obtain ⟨hquotes, hstrings, hafter⟩ := h.strings.next hK block
  refine ⟨?_, ?_, ?_, hafter⟩
  · intro i hi
    show ((mask block K.op ||| ((JsonCharacterBlock.classify K block).scalar &&&
      ~~~(scanner.next K block).1.followsPotentialNonquoteScalar)) &&&
        ~~~((scanner.stringScanner.next K block).1.inString ^^^
          (scanner.stringScanner.next K block).1.quote)).getLsbD i = _
    -- the tail of a string ends with its closing quote: all bytes before which a string is open
    rw [BitVec.getLsbD_and, BitVec.getLsbD_or, BitVec.getLsbD_and, BitVec.getLsbD_not,
      BitVec.getLsbD_not, BitVec.getLsbD_xor, getLsbD_mask block _ hi, getLsbD_scalar block hi,
      getLsbD_follows hK h block hi, hstrings i hi, hquotes i hi, decide_eq_true hi,
      ScanState.atByte_succ K s block hi, ScanState.next, ScanState.isStructural, Bool.xor_assoc,
      Bool.xor_self, Bool.xor_false, Bool.true_and, Bool.true_and]
  · intro i hi
    show (mask block (· ≤ 0x1f) &&&
      (scanner.stringScanner.next K block).1.inString).getLsbD i = _
    rw [BitVec.getLsbD_and, getLsbD_mask block _ hi, hstrings i hi,
      ScanState.atByte_succ K s block hi]
    rfl
  · show (((JsonCharacterBlock.classify K block).scalar &&&
      ~~~(scanner.stringScanner.next K block).1.quote) >>> 63) = _
    rw [shiftRight_63, getLsbD_nonquoteScalar hK h block (by decide), ScanState.atByte_length]

end Structurals

end Dataprint.Stage1
