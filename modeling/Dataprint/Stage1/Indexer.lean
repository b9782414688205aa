import Dataprint.Stage1.Utf8

/-!
# The Structural Indexes of a Text

`json_structural_indexer::index` (`src/simdjson.cpp`) runs the scanner over all blocks of a text and
writes down where its structural bytes are.

- `structurals` are the places that the scan byte by byte finds;
- `BitIndexer.write_spec` — a block is written where the one before ends, within the buffer;
- `JsonStructuralIndexer.Indexed` is what holds between two blocks.
-/

namespace Dataprint.Stage1

open Foundations

abbrev U32 := BitVec 32

/-! ## Writing indexes -/

/-- `bit_indexer`: the buffer, and the place of `tail` in it. -/
structure BitIndexer where
  buffer : List U32
  tail : ℕ

namespace BitIndexer

variable (K : Kernel)

/-- `write_index`.  No store goes out of the buffer. -/
def writeIndex (self : BitIndexer) (idx : U32) (bits : U64) (i : ℕ) : Option (BitIndexer × U64) :=
  if self.tail + i < self.buffer.length then
    if K.reverseBits then
      let lz := leadingZeroes bits
      some ({ self with buffer := self.buffer.set (self.tail + i) (idx + BitVec.ofNat 32 lz) },
        zeroLeadingBit bits lz)
    else
      let tz := trailingZeroes bits
      some ({ self with buffer := self.buffer.set (self.tail + i) (idx + BitVec.ofNat 32 tz) },
        clearLowestBit bits)
  else none

/-- `write_indexes<START, N>`, and the loop behind `STEP_UNTIL`. -/
def writeIndexes (self : BitIndexer) (idx : U32) (bits : U64) (start : ℕ) :
    ℕ → Option (BitIndexer × U64)
  | 0 => some (self, bits)
  | n + 1 => do
    let (self, bits) ← self.writeIndex K idx bits start
    self.writeIndexes idx bits (start + 1) n

/-- `STEP` -/
def STEP : ℕ := 4

/-- `STEP_UNTIL` -/
def STEP_UNTIL : ℕ := 24

/-- `write_indexes_stepped<START, STEP_UNTIL, STEP>`, with so many steps up to `STEP_UNTIL`. -/
def writeIndexesStepped (self : BitIndexer) (idx : U32) (bits : U64) (cnt start : ℕ) :
    ℕ → Option (BitIndexer × U64)
  | 0 => some (self, bits)
  | steps + 1 => do
    let (self, bits) ← self.writeIndexes K idx bits start STEP
    if start + STEP < cnt then self.writeIndexesStepped idx bits cnt (start + STEP) steps
    else return (self, bits)

/-- `write`: steps that may go beyond the last bit, and a loop that takes over from them. -/
def write (self : BitIndexer) (idx : U32) (bits : U64) : Option BitIndexer :=
  if bits = 0 then some self
  else do
    let cnt := countOnes bits
    let bits := if K.reverseBits then bits.reverse else bits
    let (self, bits) ← self.writeIndexesStepped K idx bits cnt 0 (STEP_UNTIL / STEP)
    let (self, _) ← self.writeIndexes K idx bits STEP_UNTIL (cnt - STEP_UNTIL)
    return { self with tail := self.tail + cnt }

/-- What has been written. -/
def written (self : BitIndexer) : List U32 := self.buffer.take self.tail

/-- The bits that are left, in the order in which a kernel takes them. -/
def Shows (bits x : U64) : Prop := bits = if K.reverseBits then x.reverse else x

variable {K}

/-- A store, and what is before it. -/
theorem take_set_succ {buffer : List U32} {i : ℕ} (h : i < buffer.length) (value : U32) :
    (buffer.set i value).take (i + 1) = buffer.take i ++ [value] := by
  rw [List.take_succ_eq_append_getElem (by simpa using h), List.getElem_set_self,
    List.take_set_of_le (Nat.le_refl i)]

/-- The index of a bit. -/
def indexAt (idx : U32) (i : ℕ) : U32 := idx + BitVec.ofNat 32 i

/-- Where in a block's writes the indexer is: `i` stores behind the `tail`, of which the first ones
are the indexes of `places`. -/
structure Writing (K : Kernel) (before : BitIndexer) (idx : U32) (places : List ℕ) (i : ℕ)
    (now : BitIndexer) (bits : U64) : Prop where
  size : now.buffer.length = before.buffer.length
  tail : now.tail = before.tail
  values : now.buffer.take (before.tail + min i places.length) =
    before.written ++ (places.take i).map (indexAt idx)
  left : i ≤ places.length → ∃ x, Shows K bits x ∧ setBits x = places.drop i

section Write

variable {before self : BitIndexer} (idx : U32) {places : List ℕ} {i : ℕ} (bits : U64)

/-- The next bit is found and cleared. -/
theorem writeIndex_of_shows {bits x : U64} {place : ℕ} {rest : List ℕ} (hx : Shows K bits x)
    (hset : setBits x = place :: rest) (hroom : self.tail + i < self.buffer.length) :
    ∃ bits', self.writeIndex K idx bits i =
        some ({ self with buffer := self.buffer.set (self.tail + i) (indexAt idx place) }, bits') ∧
      Shows K bits' (clearLowestBit x) := by
  have hlowest := trailingZeroes_of_setBits_eq_cons hset
  unfold Shows at hx ⊢
  unfold writeIndex indexAt
  rw [if_pos hroom, hx]
  cases K.reverseBits with
  | true =>
    refine ⟨zeroLeadingBit x.reverse place, ?_, zeroLeadingBit_reverse hset⟩
    simp only [if_true, leadingZeroes_reverse, hlowest]
  | false =>
    refine ⟨clearLowestBit x, ?_, rfl⟩
    simp [hlowest]

/-- Any store. -/
theorem exists_writeIndex (hroom : self.tail + i < self.buffer.length) :
    ∃ value bits', self.writeIndex K idx bits i =
      some ({ self with buffer := self.buffer.set (self.tail + i) value }, bits') := by
  unfold writeIndex
  rw [if_pos hroom]
  split <;> exact ⟨_, _, rfl⟩

variable {idx bits}

/-- **One store**: an index as long as there are bits, and then something. -/
theorem Writing.writeIndex (h : Writing K before idx places i self bits)
    (hroom : before.tail + i < before.buffer.length) :
    ∃ self' bits', self.writeIndex K idx bits i = some (self', bits') ∧
      Writing K before idx places (i + 1) self' bits' := by
  obtain ⟨hsize, htail, hvalues, hleft⟩ := h
  have hroom' : self.tail + i < self.buffer.length := by rwa [hsize, htail]
  -- up to the number of bits an index is stored, behind it what the next stores write over
  rcases Nat.lt_or_ge i places.length with hlt | hge
  · obtain ⟨x, hx, hset⟩ := hleft hlt.le
    rw [List.drop_eq_getElem_cons hlt] at hset
    obtain ⟨bits', hwrite, hshows⟩ := writeIndex_of_shows idx hx hset hroom'
    refine ⟨_, bits', hwrite, ?_, htail, ?_, ?_⟩
    · simp [hsize]
    · have hvalue : places.take (i + 1) = places.take i ++ [places[i]] :=
        List.take_succ_eq_append_getElem hlt
      have hmin : before.tail + min (i + 1) places.length = self.tail + i + 1 := by omega
      rw [Nat.min_eq_left hlt.le, ← htail] at hvalues
      rw [hmin, take_set_succ hroom', hvalues, hvalue, List.map_append, List.append_assoc]
      rfl
    · intro _
      refine ⟨_, hshows, ?_⟩
      rw [setBits_clearLowestBit, hset, List.tail_cons]
  · obtain ⟨value, bits', hwrite⟩ := exists_writeIndex (K := K) idx bits hroom'
    refine ⟨_, bits', hwrite, ?_, htail, ?_, ?_⟩
    · simp [hsize]
    · have hall : places.take (i + 1) = places.take i := by
        rw [List.take_of_length_le hge, List.take_of_length_le (by omega)]
      rw [Nat.min_eq_right hge] at hvalues
      rw [Nat.min_eq_right (by omega), List.take_set_of_le (by omega), hvalues, hall]
    · intro hle
      omega

/-- A number of stores. -/
theorem Writing.writeIndexes (h : Writing K before idx places i self bits) {n : ℕ}
    (hroom : before.tail + (i + n) ≤ before.buffer.length) :
    ∃ self' bits', self.writeIndexes K idx bits i n = some (self', bits') ∧
      Writing K before idx places (i + n) self' bits' := by
  induction n generalizing self bits i with
  | zero => exact ⟨self, bits, rfl, h⟩
  | succ n ih =>
    obtain ⟨self', bits', hwrite, h'⟩ := h.writeIndex (by omega)
    obtain ⟨self'', bits'', hwrites, h''⟩ := ih h' (by omega)
    refine ⟨self'', bits'', ?_, ?_⟩
    · rw [BitIndexer.writeIndexes, hwrite]
      exact hwrites
    · rwa [Nat.add_right_comm i 1 n] at h''

/-- Steps of four stores, up to all bits or to `STEP_UNTIL`. -/
theorem Writing.writeIndexesStepped (h : Writing K before idx places i self bits) {steps : ℕ}
    (hi : i + STEP * steps = STEP_UNTIL)
    (hroom : before.tail + STEP_UNTIL ≤ before.buffer.length) :
    ∃ self' bits' j, self.writeIndexesStepped K idx bits places.length i steps =
        some (self', bits') ∧
      Writing K before idx places j self' bits' ∧ j ≤ STEP_UNTIL ∧
        (places.length ≤ j ∨ j = STEP_UNTIL) := by
  -- on the steps that are left
  induction steps generalizing self bits i with
  | zero => exact ⟨self, bits, i, rfl, h, by omega, .inr (by omega)⟩
  | succ steps ih =>
    have hstep : i + STEP ≤ STEP_UNTIL := by
      rw [Nat.mul_succ] at hi
      omega
    obtain ⟨self', bits', hwrite, h'⟩ := h.writeIndexes (n := STEP) (by omega)
    rw [BitIndexer.writeIndexesStepped, hwrite]
    simp only [Option.bind_eq_bind, Option.bind_some]
    split
    case isTrue =>
      apply ih h'
      rw [← hi, Nat.mul_succ]
      omega
    case isFalse hall =>
      exact ⟨self', bits', i + STEP, rfl, h', hstep, .inl (by omega)⟩

/-- **The bits of a block are written behind what was there**, if the buffer has room for a
block. -/
theorem write_spec (self : BitIndexer) (idx : U32) (bits : U64)
    (hroom : bits ≠ 0 → self.tail + 64 ≤ self.buffer.length) :
    ∃ self', self.write K idx bits = some self' ∧ self'.buffer.length = self.buffer.length ∧
      self'.tail = self.tail + (setBits bits).length ∧
      self'.written = self.written ++ (setBits bits).map (indexAt idx) := by
  unfold write
  split
  case isTrue hzero =>
    have hnone : setBits bits = [] := setBits_eq_nil_iff.mpr hzero
    exact ⟨self, rfl, rfl, by simp [hnone], by simp [hnone]⟩
  case isFalse hbits =>
    have hle := length_setBits_le bits
    have hroom' := hroom hbits
    rw [← length_setBits]
    generalize hplaces : setBits bits = places at *
    have hstart : Writing K self idx places 0 self (if K.reverseBits then bits.reverse else bits) :=
      ⟨rfl, rfl, by simp [written], fun _ => ⟨bits, rfl, hplaces⟩⟩
    obtain ⟨self', bits', j, hwrite, h, hj, hdone⟩ :=
      hstart.writeIndexesStepped (show 0 + STEP * (STEP_UNTIL / STEP) = STEP_UNTIL from rfl)
        (Nat.le_trans (Nat.add_le_add_left (by decide) _) hroom')
    -- the loop writes what is left
    have hrest : ∃ self'' bits'' k, self'.writeIndexes K idx bits' STEP_UNTIL
          (places.length - STEP_UNTIL) = some (self'', bits'') ∧
        Writing K self idx places k self'' bits'' ∧ places.length ≤ k := by
      rcases Nat.lt_or_ge STEP_UNTIL places.length with hlt | hge
      · have hj : j = STEP_UNTIL := by omega
        subst hj
        obtain ⟨self'', bits'', hwrites, h''⟩ :=
          h.writeIndexes (n := places.length - STEP_UNTIL) (by omega)
        exact ⟨self'', bits'', _, hwrites, h'', by omega⟩
      · refine ⟨self', bits', j, ?_, h, by omega⟩
        rw [Nat.sub_eq_zero_of_le hge]
        rfl
    obtain ⟨self'', bits'', k, hwrites, h'', hk⟩ := hrest
    refine ⟨{ self'' with tail := self''.tail + places.length }, ?_, h''.size, ?_, ?_⟩
    · simp only [Option.bind_eq_bind, hwrite, Option.bind_some, hwrites]
      rfl
    · exact congrArg (· + places.length) h''.tail
    · have hvalues := h''.values
      rw [Nat.min_eq_right hk, List.take_of_length_le hk] at hvalues
      rw [← hvalues, written, h''.tail]

end Write

end BitIndexer

/-! ## Reading blocks -/

/-- `STEP_SIZE` -/
def Kernel.stepSize (K : Kernel) : ℕ := if K.twoBlocks then 128 else 64

/-- `buf_block_reader<STEP_SIZE>`. -/
structure BufBlockReader where
  buf : Bytes
  idx : ℕ

namespace BufBlockReader

variable (K : Kernel)

def lenminusstep (self : BufBlockReader) : ℕ :=
  if self.buf.length < K.stepSize then 0 else self.buf.length - K.stepSize

def hasFullBlock (self : BufBlockReader) : Bool := self.idx < self.lenminusstep K

def fullBlock (self : BufBlockReader) : Bytes := (self.buf.drop self.idx).take K.stepSize

/-- `get_remainder`: the last bytes with spaces behind them, and their number. -/
def getRemainder (self : BufBlockReader) : Bytes × ℕ :=
  let rest := self.buf.drop self.idx
  (rest ++ List.replicate (K.stepSize - rest.length) 0x20, rest.length)

def advance (self : BufBlockReader) : BufBlockReader :=
  { self with idx := self.idx + K.stepSize }

theorem advance_lt (self : BufBlockReader) (h : self.hasFullBlock K) :
    (self.advance K).buf.length - (self.advance K).idx < self.buf.length - self.idx := by
  have hidx : self.idx < self.lenminusstep K := of_decide_eq_true h
  have hstep : 0 < K.stepSize := by
    unfold Kernel.stepSize
    split <;> decide
  unfold lenminusstep at hidx
  show self.buf.length - (self.idx + K.stepSize) < self.buf.length - self.idx
  split at hidx <;> omega

end BufBlockReader

/-- 64 bytes of a block. -/
def loadBlock (block : Bytes) (off : ℕ) : Option Simd8x64 :=
  let bytes := (block.drop off).take 64
  if h : bytes.length = 64 then some ⟨bytes.toArray, h⟩ else none

/-! ## Indexing -/

/-- `json_structural_indexer`. -/
structure JsonStructuralIndexer where
  scanner : JsonScanner
  checker : Utf8Checker
  indexer : BitIndexer
  prevStructurals : U64
  unescapedCharsError : U64

namespace JsonStructuralIndexer

variable (K : Kernel)

def start (buffer : List U32) : JsonStructuralIndexer where
  scanner := .start
  checker := .start K
  indexer := ⟨buffer, 0⟩
  prevStructurals := 0
  unescapedCharsError := 0

/-- `next`.  What is written are the structurals of the block before. -/
def next (self : JsonStructuralIndexer) (input : Simd8x64) (block : JsonBlock) (idx : ℕ) :
    Option JsonStructuralIndexer := do
  let unescaped := mask input (· ≤ 0x1f)
  let checker := self.checker.checkNextInput K input
  let indexer ← self.indexer.write K (BitVec.ofNat 32 idx - 64) self.prevStructurals
  return { self with
    checker := checker
    indexer := indexer
    prevStructurals := block.structuralStart
    unescapedCharsError :=
      self.unescapedCharsError ||| block.string.nonQuoteInsideString unescaped }

/-- `step<64>` and `step<128>`. -/
def step (self : JsonStructuralIndexer) (block : Bytes) (idx : ℕ) :
    Option JsonStructuralIndexer := do
  if K.twoBlocks then
    let in1 ← loadBlock block 0
    let in2 ← loadBlock block 64
    let (block1, scanner) := self.scanner.next K in1
    let (block2, scanner) := scanner.next K in2
    let self ← { self with scanner := scanner }.next K in1 block1 idx
    self.next K in2 block2 (idx + 64)
  else
    let in1 ← loadBlock block 0
    let (block1, scanner) := self.scanner.next K in1
    { self with scanner := scanner }.next K in1 block1 idx

/-- The loop over all but the last block. -/
def indexBlocks (self : JsonStructuralIndexer) (reader : BufBlockReader) :
    Option (JsonStructuralIndexer × BufBlockReader) :=
  if _h : reader.hasFullBlock K then do
    let self ← self.step K (reader.fullBlock K) reader.idx
    self.indexBlocks (reader.advance K)
  else some (self, reader)
termination_by reader.buf.length - reader.idx
decreasing_by exact reader.advance_lt K ‹_›

end JsonStructuralIndexer

/-! ## Byte by byte -/

section Structurals

variable (K : Kernel)

/-- The places of the structural bytes of a text that starts at `pos`. -/
def structurals (s : ScanState) (pos : ℕ) : Bytes → List ℕ
  | [] => []
  | c :: bytes =>
    if s.isStructural K c then pos :: structurals (s.next K c) (pos + 1) bytes
    else structurals (s.next K c) (pos + 1) bytes

/-- A string has a control character in it. -/
def hasControl (s : ScanState) : Bytes → Bool
  | [] => false
  | c :: bytes => s.isControl c || hasControl (s.next K c) bytes

variable {K} {s : ScanState} {pos : ℕ}

theorem structurals_append (bytes bytes' : Bytes) :
    structurals K s pos (bytes ++ bytes') =
      structurals K s pos bytes ++ structurals K (s.after K bytes) (pos + bytes.length) bytes' := by
  induction bytes generalizing s pos with
  | nil => rfl
  | cons c bytes ih =>
    have htail := @ih (s.next K c) (pos + 1)
    rw [Nat.add_assoc, Nat.add_comm 1] at htail
    simp only [List.cons_append, structurals, htail, ScanState.after_cons, List.length_cons]
    split <;> rfl

theorem hasControl_append (bytes bytes' : Bytes) :
    hasControl K s (bytes ++ bytes') =
      (hasControl K s bytes || hasControl K (s.after K bytes) bytes') := by
  induction bytes generalizing s with
  | nil => rfl
  | cons c bytes ih => simp [hasControl, ih, Bool.or_assoc]

/-- There are no more structural bytes than bytes. -/
theorem length_structurals_le (bytes : Bytes) :
    (structurals K s pos bytes).length ≤ bytes.length := by
  induction bytes generalizing s pos with
  | nil => exact Nat.le_refl 0
  | cons c bytes ih =>
    have htail := @ih (s.next K c) (pos + 1)
    rw [structurals]
    split <;> simp only [List.length_cons] <;> omega

/-- They are in the text. -/
theorem mem_structurals {bytes : Bytes} {i : ℕ} (h : i ∈ structurals K s pos bytes) :
    pos ≤ i ∧ i < pos + bytes.length := by
  induction bytes generalizing s pos with
  | nil => simp [structurals] at h
  | cons c bytes ih =>
    have htail := @ih (s.next K c) (pos + 1)
    rw [structurals] at h
    rw [List.length_cons]
    split at h
    case isTrue =>
      rcases List.mem_cons.mp h with rfl | h
      · omega
      · have hi := htail h
        omega
    case isFalse =>
      have hi := htail h
      omega

/-- The structurals of the first bytes are among those of all. -/
theorem mem_structurals_take {text : Bytes} {n i : ℕ} (h : i ∈ structurals K s pos (text.take n)) :
    i ∈ structurals K s pos text := by
  rw [← List.take_append_drop n text, structurals_append]
  exact List.mem_append_left _ h

/-- Spaces change nothing. -/
theorem structurals_spaces (hK : K.Lawful) (n : ℕ) :
    structurals K s pos (List.replicate n 0x20) = [] ∧
      hasControl K s (List.replicate n 0x20) = false ∧
      (s.after K (List.replicate n 0x20)).inString = s.inString := by
  induction n generalizing s pos with
  | zero => exact ⟨rfl, rfl, rfl⟩
  | succ n ih =>
    obtain ⟨hstructurals, hcontrol, hstring⟩ := @ih (s.next K 0x20) (pos + 1)
    have hwhite : isWhitespace 0x20 = true := rfl
    rw [List.replicate_succ, structurals, hasControl, ScanState.after_cons, hstructurals,
      hcontrol, hstring, ScanState.isStructural_of_isWhitespace hK hwhite,
      ScanState.inString_next_of_isWhitespace hwhite]
    refine ⟨rfl, ?_, rfl⟩
    simp [ScanState.isControl]

/-- **The bits of a block are the places in it.** -/
theorem structurals_block {x : U64} {block : Simd8x64}
    (hx : ∀ i (hi : i < 64), x.getLsbD i = (s.atByte K block i).isStructural K block[i]) :
    structurals K s pos block.toList = (setBits x).map (pos + ·) := by
  have hprefix : ∀ n ≤ 64, structurals K s pos (block.toList.take n) =
      ((List.range n).filter x.getLsbD).map (pos + ·) := by
    intro n
    induction n with
    | zero => intro _; rfl
    | succ n ih =>
      intro hn
      have hlength : (block.toList.take n).length = n := by
        simp only [List.length_take, Vector.length_toList]
        omega
      have hbit : x.getLsbD n = (s.after K (block.toList.take n)).isStructural K block[n] := hx n hn
      rw [ScanState.take_succ_block block hn, structurals_append, ih (by omega), hlength,
        List.range_succ, List.filter_append, List.map_append]
      cases hstructural : (s.after K (block.toList.take n)).isStructural K block[n]
      all_goals simp [structurals, hbit, hstructural]
  have hall := hprefix 64 (Nat.le_refl 64)
  rwa [List.take_of_length_le (by simp)] at hall

/-- So are the control characters. -/
theorem hasControl_block {x : U64} {block : Simd8x64}
    (hx : ∀ i (hi : i < 64), x.getLsbD i = (s.atByte K block i).isControl block[i]) :
    hasControl K s block.toList = !(setBits x).isEmpty := by
  have hprefix : ∀ n ≤ 64, hasControl K s (block.toList.take n) =
      !((List.range n).filter x.getLsbD).isEmpty := by
    intro n
    induction n with
    | zero => intro _; rfl
    | succ n ih =>
      intro hn
      have hbit : x.getLsbD n = (s.after K (block.toList.take n)).isControl block[n] := hx n hn
      rw [ScanState.take_succ_block block hn, hasControl_append, ih (by omega),
        List.range_succ, List.filter_append]
      cases hcontrol : (s.after K (block.toList.take n)).isControl block[n]
      all_goals simp [hasControl, hbit, hcontrol]
  have hall := hprefix 64 (Nat.le_refl 64)
  rwa [List.take_of_length_le (by simp)] at hall

end Structurals

/-! ## Block by block -/

namespace JsonStructuralIndexer

variable {K : Kernel} {size : ℕ} {self : JsonStructuralIndexer} {text : Bytes}

/-- What holds between two blocks: all structurals are written, or will be with the next block. -/
structure Indexed (K : Kernel) (size : ℕ) (now : JsonStructuralIndexer) (text : Bytes) : Prop where
  scanner : now.scanner.Represents (ScanState.start.after K text)
  checker : now.checker.Represents K text
  bufferSize : now.indexer.buffer.length = size
  count : now.indexer.tail + (setBits now.prevStructurals).length =
    (structurals K .start 0 text).length
  indexes : now.indexer.written ++ (setBits now.prevStructurals).map
      (BitIndexer.indexAt (BitVec.ofNat 32 text.length - 64)) =
    (structurals K .start 0 text).map (BitVec.ofNat 32)
  unescaped : now.unescapedCharsError ≠ 0 ↔ hasControl K .start text = true
  room : now.prevStructurals ≠ 0 → now.indexer.tail + 64 ≤ size

theorem start_indexed (hK : K.Lawful) (buffer : List U32) :
    Indexed K buffer.length (start K buffer) [] where
  scanner := JsonScanner.start_represents
  checker := Utf8Checker.start_represents hK
  bufferSize := rfl
  count := by simp [start, structurals, setBits]
  indexes := by simp [start, structurals, setBits, BitIndexer.written]
  unescaped := by simp [start, hasControl]
  room h := absurd rfl h

/-- `step<64>`: one block. -/
def stepBlock (K : Kernel) (self : JsonStructuralIndexer) (input : Simd8x64) (idx : ℕ) :
    Option JsonStructuralIndexer :=
  let (block, scanner) := self.scanner.next K input
  { self with scanner := scanner }.next K input block idx

/-- The scanner may run ahead of what is written. -/
theorem step_of_twoBlocks (h : K.twoBlocks = true) (block : Bytes) (idx : ℕ) :
    self.step K block idx = (do
      let in1 ← loadBlock block 0
      let in2 ← loadBlock block 64
      let self ← self.stepBlock K in1 idx
      self.stepBlock K in2 (idx + 64)) := by
  unfold step
  rw [if_pos h]
  congr 1
  funext in1
  congr 1
  funext in2
  simp only [stepBlock, JsonStructuralIndexer.next]
  cases self.indexer.write K (BitVec.ofNat 32 idx - 64) self.prevStructurals <;> rfl

theorem step_of_not_twoBlocks (h : K.twoBlocks = false) (block : Bytes) (idx : ℕ) :
    self.step K block idx = (loadBlock block 0).bind fun in1 => self.stepBlock K in1 idx := by
  unfold step
  rw [h]
  rfl

/-- A place in a text, from the index of its block. -/
theorem indexAt_block (n i : ℕ) :
    BitIndexer.indexAt (BitVec.ofNat 32 (n + 64) - 64) i = BitVec.ofNat 32 (n + i) := by
  rw [BitIndexer.indexAt, BitVec.ofNat_add n 64, BitVec.ofNat_add n i]
  exact congrArg (· + BitVec.ofNat 32 i) (BitVec.add_sub_cancel _ _)

/-- **One block further.** -/
theorem Indexed.stepBlock (hK : K.Lawful) (h : Indexed K size self text) (block : Simd8x64)
    (hroom : structurals K (ScanState.start.after K text) text.length block.toList ≠ [] →
      (structurals K .start 0 text).length + 64 ≤ size) :
    ∃ self', self.stepBlock K block text.length = some self' ∧
      Indexed K size self' (text ++ block.toList) := by
  obtain ⟨hscanner, hchecker, hsize, hcount, hindexes, hunescaped, hprev⟩ := h
  obtain ⟨hstructural, hcontrol, hnext⟩ := hscanner.next hK block
  obtain ⟨indexer, hwrite, hlength, htail, hwritten⟩ := BitIndexer.write_spec (K := K)
    self.indexer (BitVec.ofNat 32 text.length - 64) self.prevStructurals (hsize.symm ▸ hprev)
  have hplaces := @structurals_block K _ text.length _ _ hstructural
  have hcontrols := hasControl_block hcontrol
  have hall : structurals K .start 0 (text ++ block.toList) = structurals K .start 0 text ++
      (setBits (self.scanner.next K block).1.structuralStart).map (text.length + ·) := by
    rw [structurals_append, Nat.zero_add, hplaces]
  refine ⟨{ self with
    scanner := (self.scanner.next K block).2
    checker := self.checker.checkNextInput K block
    indexer := indexer
    prevStructurals := (self.scanner.next K block).1.structuralStart
    unescapedCharsError := self.unescapedCharsError |||
      (self.scanner.next K block).1.string.nonQuoteInsideString (mask block (· ≤ 0x1f)) },
    ?_, ?_, hchecker.next hK block, hlength.trans hsize, ?_, ?_, ?_, ?_⟩
  · unfold JsonStructuralIndexer.stepBlock JsonStructuralIndexer.next
    simp only [Option.bind_eq_bind, hwrite, Option.bind_some]
    rfl
  · rw [ScanState.after_append]
    exact hnext
  · rw [hall, List.length_append, List.length_map, htail, hcount]
  · rw [hall, hwritten, hindexes, List.map_append, List.map_map, List.length_append,
      Vector.length_toList]
    congr 1
    apply List.map_congr_left
    intro i _
    exact indexAt_block text.length i
  -- the errors of all blocks are gathered in one word
  · rw [hasControl_append, hcontrols, Bool.or_eq_true, ← hunescaped]
    simp [setBits_eq_nil_iff, BitVec.or_eq_zero_iff, imp_iff_not_or]
  -- the next block is where the new bits are stored
  · intro hbits
    rw [htail, hcount]
    apply hroom
    rw [hplaces]
    simpa [setBits_eq_nil_iff] using hbits

/-- A block of a text that fits has its writes in the buffer. -/
theorem room_of_lt {S : ℕ} (hS : 64 ∣ S) (hsize : S ≤ size) (haligned : 64 ∣ text.length)
    {block rest : Bytes}
    (hin : ∀ i ∈ structurals K .start 0 (text ++ block ++ rest), i < S)
    (hblock : structurals K (ScanState.start.after K text) text.length block ≠ []) :
    (structurals K .start 0 text).length + 64 ≤ size := by
  -- a structural byte of the block is before `S`, so that the whole block is
  obtain ⟨i, hi⟩ := List.exists_mem_of_ne_nil _ hblock
  have hlow := (mem_structurals hi).1
  have hlt : i < S := by
    apply hin
    rw [structurals_append, structurals_append, Nat.zero_add]
    exact List.mem_append_left _ (List.mem_append_right _ hi)
  have hcount : (structurals K .start 0 text).length ≤ text.length := length_structurals_le text
  omega

theorem exists_loadBlock {block : Bytes} {off : ℕ} (h : off + 64 ≤ block.length) :
    ∃ input : Simd8x64, loadBlock block off = some input ∧
      input.toList = (block.drop off).take 64 := by
  have hlength : ((block.drop off).take 64).length = 64 := by
    rw [List.length_take, List.length_drop]
    omega
  refine ⟨⟨((block.drop off).take 64).toArray, hlength⟩, dif_pos hlength, ?_⟩
  simp [Vector.toList]

/-- **One step further**: one block or two. -/
theorem Indexed.step (hK : K.Lawful) (h : Indexed K size self text) {S : ℕ} (hS : 64 ∣ S)
    (hsize : S ≤ size) (haligned : 64 ∣ text.length) {block : Bytes}
    (hblock : block.length = K.stepSize)
    (hin : ∀ i ∈ structurals K .start 0 (text ++ block), i < S) :
    ∃ self', self.step K block text.length = some self' ∧ Indexed K size self' (text ++ block) := by
  unfold Kernel.stepSize at hblock
  cases htwo : K.twoBlocks with
  | true =>
    rw [htwo, if_pos rfl] at hblock
    obtain ⟨in1, hload1, hin1⟩ := @exists_loadBlock block 0 (by omega)
    obtain ⟨in2, hload2, hin2⟩ := @exists_loadBlock block 64 (by omega)
    have hsplit : block = in1.toList ++ in2.toList := by
      have hlast : (block.drop 64).take 64 = block.drop 64 :=
        List.take_of_length_le (by rw [List.length_drop]; omega)
      rw [hin1, hin2, hlast, List.drop_zero, List.take_append_drop]
    rw [hsplit] at hin
    obtain ⟨self', hstep, h'⟩ := h.stepBlock hK in1 (room_of_lt hS hsize haligned (by
      rwa [List.append_assoc]))
    have hlength : (text ++ in1.toList).length = text.length + 64 := by
      rw [List.length_append, Vector.length_toList]
    obtain ⟨self'', hstep', h''⟩ := h'.stepBlock hK in2 (room_of_lt hS hsize (by omega) (by
      rwa [List.append_nil, List.append_assoc]))
    refine ⟨self'', ?_, ?_⟩
    · rw [step_of_twoBlocks htwo, hload1, hload2]
      simp only [Option.bind_eq_bind, Option.bind_some, hstep]
      rwa [hlength] at hstep'
    · rwa [hsplit, ← List.append_assoc]
  | false =>
    rw [htwo, if_neg Bool.false_ne_true] at hblock
    obtain ⟨in1, hload1, hin1⟩ := @exists_loadBlock block 0 (by omega)
    have hsplit : block = in1.toList := by
      rw [hin1, List.drop_zero, List.take_of_length_le hblock.le]
    rw [hsplit] at hin
    obtain ⟨self', hstep, h'⟩ := h.stepBlock hK in1 (room_of_lt hS hsize haligned (by
      rwa [List.append_nil]))
    refine ⟨self', ?_, ?_⟩
    · rw [step_of_not_twoBlocks htwo, hload1]
      exact hstep
    · rwa [hsplit]

section Blocks

variable {S : ℕ} {buf : Bytes}

/-- **All blocks but the last**, which has at least one byte. -/
theorem Indexed.indexBlocks (hK : K.Lawful) (hS : 64 ∣ S) (hsize : S ≤ size)
    (hin : ∀ i ∈ structurals K .start 0 buf, i < S) {idx : ℕ} (haligned : 64 ∣ idx)
    (hidx : idx < buf.length) (h : Indexed K size self (buf.take idx)) :
    ∃ self' idx', self.indexBlocks K ⟨buf, idx⟩ = some (self', ⟨buf, idx'⟩) ∧ 64 ∣ idx' ∧
      idx' < buf.length ∧ buf.length ≤ idx' + K.stepSize ∧
        Indexed K size self' (buf.take idx') := by
  -- on the bytes that are left; `Indexed` is the invariant
  induction hleft : buf.length - idx using Nat.strongRecOn generalizing self idx with
  | _ left ih =>
    have hstep : 64 ∣ K.stepSize ∧ 0 < K.stepSize := by
      unfold Kernel.stepSize
      split <;> decide
    rw [JsonStructuralIndexer.indexBlocks]
    split
    case isTrue hfull =>
      have hroom : idx + K.stepSize < buf.length := by
        have hlt : idx < BufBlockReader.lenminusstep K ⟨buf, idx⟩ := of_decide_eq_true hfull
        unfold BufBlockReader.lenminusstep at hlt
        dsimp only at hlt
        split at hlt <;> omega
      have hlength : (buf.take idx).length = idx := List.length_take_of_le hidx.le
      have hblock : (BufBlockReader.fullBlock K ⟨buf, idx⟩).length = K.stepSize := by
        rw [BufBlockReader.fullBlock, List.length_take, List.length_drop]
        dsimp only
        omega
      have htake : buf.take idx ++ BufBlockReader.fullBlock K ⟨buf, idx⟩ =
          buf.take (idx + K.stepSize) := List.take_add.symm
      obtain ⟨self', hnext, h'⟩ := h.step hK hS hsize (by rwa [hlength]) hblock (by
        rw [htake]
        exact fun i hi => hin i (mem_structurals_take hi))
      rw [hlength] at hnext
      rw [htake] at h'
      obtain ⟨self'', idx', hrest, hdone⟩ :=
        ih (buf.length - (idx + K.stepSize)) (by omega) (Nat.dvd_add haligned hstep.1) hroom h' rfl
      refine ⟨self'', idx', ?_, hdone⟩
      simp only [Option.bind_eq_bind, hnext, Option.bind_some]
      exact hrest
    case isFalse hfull =>
      refine ⟨self, idx, rfl, haligned, hidx, ?_, h⟩
      have hge : BufBlockReader.lenminusstep K ⟨buf, idx⟩ ≤ idx := by
        simpa [BufBlockReader.hasFullBlock] using hfull
      unfold BufBlockReader.lenminusstep at hge
      dsimp only at hge
      split at hge <;> omega

/-- **All blocks**, the last one with spaces behind it. -/
theorem exists_indexed (hK : K.Lawful) (hne : buf ≠ []) (hS : 64 ∣ S) (hle : buf.length ≤ S)
    {buffer : List U32} (hsize : S ≤ buffer.length) :
    ∃ self reader self' spaces, (start K buffer).indexBlocks K ⟨buf, 0⟩ = some (self, reader) ∧
      (reader.getRemainder K).2 ≠ 0 ∧
      self.step K (reader.getRemainder K).1 reader.idx = some self' ∧
      (reader.advance K).idx = buf.length + spaces ∧
      Indexed K buffer.length self' (buf ++ List.replicate spaces 0x20) := by
  have hin : ∀ i ∈ structurals K .start 0 buf, i < S := by
    intro i hi
    have hlt := (mem_structurals hi).2
    omega
  obtain ⟨self, idx, hblocks, haligned, hidx, hlast, h⟩ :=
    Indexed.indexBlocks hK hS hsize hin (Nat.dvd_zero 64) (List.length_pos_iff.mpr hne)
      (start_indexed hK buffer)
  have hlength : (buf.take idx).length = idx := List.length_take_of_le hidx.le
  have hblock : (BufBlockReader.getRemainder K ⟨buf, idx⟩).1.length = K.stepSize := by
    rw [BufBlockReader.getRemainder, List.length_append, List.length_replicate, List.length_drop]
    dsimp only
    omega
  have htext : buf.take idx ++ (BufBlockReader.getRemainder K ⟨buf, idx⟩).1 =
      buf ++ List.replicate (K.stepSize - (buf.length - idx)) 0x20 := by
    rw [BufBlockReader.getRemainder, ← List.append_assoc, List.take_append_drop, List.length_drop]
  -- the spaces of the last block are behind the room, but they are not stored
  obtain ⟨self', hstep, h'⟩ := h.step hK hS hsize (by rwa [hlength]) hblock (by
    rw [htext, structurals_append, (structurals_spaces hK _).1, List.append_nil]
    exact hin)
  rw [hlength] at hstep
  rw [htext] at h'
  refine ⟨self, ⟨buf, idx⟩, self', _, hblocks, ?_, hstep, ?_, h'⟩
  · rw [BufBlockReader.getRemainder, List.length_drop]
    dsimp only
    omega
  · rw [BufBlockReader.advance]
    dsimp only
    omega

/-- **The last block's structurals** are written by `finish`. -/
theorem Indexed.lastWrite (h : Indexed K size self text) :
    ∃ indexer, self.indexer.write K (BitVec.ofNat 32 text.length - 64) self.prevStructurals =
        some indexer ∧
      indexer.buffer.length = size ∧ indexer.tail = (structurals K .start 0 text).length ∧
        indexer.written = (structurals K .start 0 text).map (BitVec.ofNat 32) := by
  obtain ⟨-, -, hsize, hcount, hindexes, -, hroom⟩ := h
  obtain ⟨indexer, hwrite, hlength, htail, hwritten⟩ := BitIndexer.write_spec (K := K)
    self.indexer (BitVec.ofNat 32 text.length - 64) self.prevStructurals (hsize.symm ▸ hroom)
  exact ⟨indexer, hwrite, hlength.trans hsize, htail.trans hcount, hwritten.trans hindexes⟩

end Blocks

end JsonStructuralIndexer

end Dataprint.Stage1
