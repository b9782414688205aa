import Dataprint.Blake3.Compress

/-!
# Chunks

`lib/blake3/blake3.c` hashes a chunk of at most 1024 bytes block by block.  The last block, which
may be a full one, stays in a buffer, since its flags say that it is the last.

- `absorb` — the state of a chunk as a function of its bytes;
- `chunkStateUpdate_absorb` — an update appends to the bytes, wherever they were cut;
- `hashOne_eq_chunkCV` — the path for many full chunks at once agrees with it.
-/

namespace Dataprint.Blake3

/-- `blake3_chunk_state`. -/
structure ChunkState where
  cv : CVWords
  chunkCounter : U64
  buf : Block
  bufLen : ℕ
  blocksCompressed : ℕ
  flags : UInt8
  deriving DecidableEq, Inhabited

/-- `output_t`: a node of the tree before its last compression. -/
structure Output where
  inputCV : CVWords
  counter : U64
  block : Block
  blockLen : ℕ
  flags : UInt8
  deriving DecidableEq, Inhabited

def chunkStateInit (key : CVWords) (flags : UInt8) : ChunkState where
  cv := key
  chunkCounter := 0
  buf := Vector.replicate 64 0
  bufLen := 0
  blocksCompressed := 0
  flags := flags

def chunkStateReset (self : ChunkState) (key : CVWords) (chunkCounter : U64) : ChunkState :=
  { self with
    cv := key
    chunkCounter := chunkCounter
    blocksCompressed := 0
    buf := Vector.replicate 64 0
    bufLen := 0 }

def chunkStateLen (self : ChunkState) : ℕ :=
  BLAKE3_BLOCK_LEN * self.blocksCompressed + self.bufLen

/-- Fills the buffer as far as it goes, and returns the number of bytes taken. -/
def chunkStateFillBuf (self : ChunkState) (input : Bytes) : ChunkState × ℕ :=
  let take := BLAKE3_BLOCK_LEN - self.bufLen
  let take := if take > input.length then input.length else take
  ({ self with
      buf := memcpy self.buf self.bufLen (input.take take)
      bufLen := self.bufLen + take }, take)

def chunkStateMaybeStartFlag (self : ChunkState) : UInt8 :=
  if self.blocksCompressed = 0 then CHUNK_START else 0

def outputChainingValue (self : Output) : CV :=
  storeCVWords
    (compressInPlace self.inputCV self.block self.blockLen self.counter self.flags)

/-- Compresses a block that is not the last of its chunk. -/
def compressBlock (self : ChunkState) (block : Block) : ChunkState :=
  { self with
    cv := compressInPlace self.cv block BLAKE3_BLOCK_LEN self.chunkCounter
      (self.flags ||| chunkStateMaybeStartFlag self)
    blocksCompressed := self.blocksCompressed + 1 }

/-- The loop of `chunk_state_update`: blocks that are not the last are compressed from the input.
What is left comes with the state. -/
def compressBlocks (self : ChunkState) (input : Bytes) : ChunkState × Bytes :=
  if BLAKE3_BLOCK_LEN < input.length then
    compressBlocks (compressBlock self (blockOf input)) (input.drop BLAKE3_BLOCK_LEN)
  else (self, input)
termination_by input.length
decreasing_by
  rw [List.length_drop]
  unfold BLAKE3_BLOCK_LEN at *
  omega

def chunkStateUpdate (self : ChunkState) (input : Bytes) : ChunkState :=
  let (self, input) :=
    if self.bufLen > 0 then
      let (self, take) := chunkStateFillBuf self input
      let input := input.drop take
      if input.length > 0 then
        ({ compressBlock self self.buf with bufLen := 0, buf := Vector.replicate 64 0 }, input)
      else (self, input)
    else (self, input)
  let (self, input) := compressBlocks self input
  (chunkStateFillBuf self input).1

def chunkStateOutput (self : ChunkState) : Output where
  inputCV := self.cv
  counter := self.chunkCounter
  block := self.buf
  blockLen := self.bufLen
  flags := self.flags ||| chunkStateMaybeStartFlag self ||| CHUNK_END

def parentOutput (block : Block) (key : CVWords) (flags : UInt8) : Output where
  inputCV := key
  counter := 0
  block := block
  blockLen := BLAKE3_BLOCK_LEN
  flags := flags ||| PARENT

/-! ## The state as a function of the bytes -/

theorem blockOf_nil : blockOf [] = Vector.replicate 64 0 := by
  ext i hi
  simp [blockOf]

/-- Bytes behind the first block do not belong to it. -/
theorem blockOf_append_of_le {xs ys : Bytes} (h : BLAKE3_BLOCK_LEN ≤ xs.length) :
    blockOf (xs ++ ys) = blockOf xs := by
  ext i hi
  have hlt : i < xs.length := Nat.lt_of_lt_of_le hi h
  simp [blockOf, List.getElem?_append_left hlt]

/-- Filling the buffer appends to its bytes. -/
theorem memcpy_blockOf {xs ys : Bytes} :
    memcpy (blockOf xs) xs.length ys = blockOf (xs ++ ys) := by
  ext i hi
  simp only [memcpy, blockOf, Vector.getElem_ofFn, Fin.getElem_fin, List.getD_eq_getElem?_getD]
  by_cases hlt : i < xs.length
  · rw [if_neg (fun h => absurd h.1 (Nat.not_le.mpr hlt)), List.getElem?_append_left hlt]
  · have hle := Nat.le_of_not_lt hlt
    rw [List.getElem?_append_right hle]
    by_cases hys : i < xs.length + ys.length
    · rw [if_pos ⟨hle, hys⟩]
    · rw [if_neg (fun h => hys h.2), List.getElem?_eq_none hle,
        List.getElem?_eq_none (by omega)]

/-- The state behind some bytes of a chunk: all blocks but the last are compressed. -/
def absorb (self : ChunkState) (bytes : Bytes) : ChunkState :=
  if BLAKE3_BLOCK_LEN < bytes.length then
    absorb (compressBlock self (blockOf bytes)) (bytes.drop BLAKE3_BLOCK_LEN)
  else { self with buf := blockOf bytes, bufLen := bytes.length }
termination_by bytes.length
decreasing_by
  rw [List.length_drop]
  unfold BLAKE3_BLOCK_LEN at *
  omega

theorem absorb_of_le {self : ChunkState} {bytes : Bytes} (h : bytes.length ≤ BLAKE3_BLOCK_LEN) :
    absorb self bytes = { self with buf := blockOf bytes, bufLen := bytes.length } := by
  rw [absorb, if_neg (Nat.not_lt.mpr h)]

theorem absorb_of_lt {self : ChunkState} {bytes : Bytes} (h : BLAKE3_BLOCK_LEN < bytes.length) :
    absorb self bytes =
      absorb (compressBlock self (blockOf bytes)) (bytes.drop BLAKE3_BLOCK_LEN) := by
  rw [absorb, if_pos h]

/-- What the buffer held before does not matter. -/
theorem absorb_buffer (self : ChunkState) (buf : Block) (bufLen : ℕ) (bytes : Bytes) :
    absorb { self with buf := buf, bufLen := bufLen } bytes = absorb self bytes := by
  fun_induction absorb self bytes with
  | case1 self bytes h ih => exact (absorb_of_lt h).trans ih
  | case2 self bytes h => exact absorb_of_le (Nat.le_of_not_lt h)

theorem chunkCounter_absorb (self : ChunkState) (bytes : Bytes) :
    (absorb self bytes).chunkCounter = self.chunkCounter := by
  fun_induction absorb self bytes with
  | case1 self bytes h ih => exact ih
  | case2 self bytes h => rfl

theorem flags_absorb (self : ChunkState) (bytes : Bytes) :
    (absorb self bytes).flags = self.flags := by
  fun_induction absorb self bytes with
  | case1 self bytes h ih => exact ih
  | case2 self bytes h => rfl

theorem chunkStateLen_absorb (self : ChunkState) (bytes : Bytes) :
    chunkStateLen (absorb self bytes) =
      BLAKE3_BLOCK_LEN * self.blocksCompressed + bytes.length := by
  fun_induction absorb self bytes with
  | case1 self bytes h ih =>
    rw [ih, List.length_drop]
    simp only [BLAKE3_BLOCK_LEN, compressBlock] at *
    omega
  | case2 self bytes h => rfl

theorem chunkStateFillBuf_eq {self : ChunkState} {tail : Bytes} (hbuf : self.buf = blockOf tail)
    (hlen : self.bufLen = tail.length) (input : Bytes) :
    chunkStateFillBuf self input =
      let take := min (BLAKE3_BLOCK_LEN - tail.length) input.length
      ({ self with
          buf := blockOf (tail ++ input.take take)
          bufLen := (tail ++ input.take take).length }, take) := by
  have htake : (if BLAKE3_BLOCK_LEN - tail.length > input.length then input.length
      else BLAKE3_BLOCK_LEN - tail.length) = min (BLAKE3_BLOCK_LEN - tail.length) input.length := by
    split <;> omega
  have hlength : (input.take (min (BLAKE3_BLOCK_LEN - tail.length) input.length)).length =
      min (BLAKE3_BLOCK_LEN - tail.length) input.length := by
    rw [List.length_take]
    omega
  simp only [chunkStateFillBuf, hlen, hbuf, htake, memcpy_blockOf, List.length_append, hlength]

/-- Bytes that fit go into the buffer. -/
theorem chunkStateFillBuf_of_le {self : ChunkState} {tail input : Bytes}
    (hbuf : self.buf = blockOf tail) (hlen : self.bufLen = tail.length)
    (hle : tail.length + input.length ≤ BLAKE3_BLOCK_LEN) :
    chunkStateFillBuf self input =
      ({ self with buf := blockOf (tail ++ input), bufLen := (tail ++ input).length },
        input.length) := by
  have hmin : min (BLAKE3_BLOCK_LEN - tail.length) input.length = input.length := by omega
  simp only [chunkStateFillBuf_eq hbuf hlen, hmin, List.take_length]

theorem memcpy_nil {n : ℕ} (dest : Vector UInt8 n) (off : ℕ) : memcpy dest off [] = dest := by
  ext i hi
  have hnone : ¬ (off ≤ i ∧ i < off) := by omega
  simp [memcpy, hnone]

/-- Nothing is left to fill. -/
theorem chunkStateFillBuf_nil (self : ChunkState) : (chunkStateFillBuf self []).1 = self := by
  have htake : (if BLAKE3_BLOCK_LEN - self.bufLen > 0 then 0
      else BLAKE3_BLOCK_LEN - self.bufLen) = 0 := by
    split <;> omega
  simp only [chunkStateFillBuf, List.length_nil, htake, List.take_nil, memcpy_nil, Nat.add_zero]

theorem compressBlocks_nil (self : ChunkState) : compressBlocks self [] = (self, []) := by
  rw [compressBlocks, if_neg (by simp)]

/-- From an empty buffer, the loop and the last filling absorb the input. -/
theorem fill_compressBlocks {self : ChunkState} (hbuf : self.buf = blockOf [])
    (hlen : self.bufLen = 0) (input : Bytes) :
    (chunkStateFillBuf (compressBlocks self input).1 (compressBlocks self input).2).1 =
      absorb self input := by
  fun_induction compressBlocks self input with
  | case1 self input h ih => rw [ih hbuf hlen, absorb_of_lt h]
  | case2 self input h =>
    have hle := Nat.le_of_not_lt h
    rw [chunkStateFillBuf_of_le hbuf hlen (by simpa using hle), absorb_of_le hle, List.nil_append]

/-- **An update** absorbs the input behind what is in the buffer. -/
theorem chunkStateUpdate_eq {self : ChunkState} {tail : Bytes} (hbuf : self.buf = blockOf tail)
    (hlen : self.bufLen = tail.length) (htail : tail.length ≤ BLAKE3_BLOCK_LEN) (input : Bytes) :
    chunkStateUpdate self input = absorb self (tail ++ input) := by
  unfold chunkStateUpdate
  by_cases hpos : self.bufLen > 0
  · rw [if_pos hpos, chunkStateFillBuf_eq hbuf hlen]
    by_cases hfits : tail.length + input.length ≤ BLAKE3_BLOCK_LEN
    · -- the input ends in the buffer
      have hmin : min (BLAKE3_BLOCK_LEN - tail.length) input.length = input.length := by omega
      simp only [hmin, List.take_length, List.drop_length, List.length_nil, gt_iff_lt,
        Nat.lt_irrefl, if_false, compressBlocks_nil, chunkStateFillBuf_nil]
      rw [absorb_of_le (by rwa [List.length_append])]
    · -- the buffer is full and not the last block
      have hmin : min (BLAKE3_BLOCK_LEN - tail.length) input.length =
          BLAKE3_BLOCK_LEN - tail.length := by omega
      have hmore : (input.drop (BLAKE3_BLOCK_LEN - tail.length)).length > 0 := by
        rw [List.length_drop]
        omega
      have hlt : BLAKE3_BLOCK_LEN < (tail ++ input).length := by
        rw [List.length_append]
        omega
      have hfull : (tail ++ input.take (BLAKE3_BLOCK_LEN - tail.length)).length =
          BLAKE3_BLOCK_LEN := by
        rw [List.length_append, List.length_take]
        omega
      have hsplit : tail ++ input = tail ++ input.take (BLAKE3_BLOCK_LEN - tail.length) ++
          input.drop (BLAKE3_BLOCK_LEN - tail.length) := by
        rw [List.append_assoc, List.take_append_drop]
      have hblock : blockOf (tail ++ input) =
          blockOf (tail ++ input.take (BLAKE3_BLOCK_LEN - tail.length)) := by
        rw [hsplit, blockOf_append_of_le (Nat.le_of_eq hfull.symm)]
      have hdrop : (tail ++ input).drop BLAKE3_BLOCK_LEN =
          input.drop (BLAKE3_BLOCK_LEN - tail.length) := by
        rw [hsplit, List.drop_left' hfull]
      simp only [hmin, if_pos hmore]
      refine (fill_compressBlocks ?_ ?_ _).trans ?_
      · exact blockOf_nil.symm
      · rfl
      · rw [absorb_of_lt hlt, hblock, hdrop]
        exact absorb_buffer (compressBlock self _) _ _ _
  · have hnil : tail = [] := List.eq_nil_of_length_eq_zero (by omega)
    subst hnil
    rw [if_neg hpos]
    exact fill_compressBlocks hbuf hlen input

/-- **Updates compose**: the bytes may come in pieces of any length. -/
theorem chunkStateUpdate_absorb (self : ChunkState) (xs ys : Bytes) :
    chunkStateUpdate (absorb self xs) ys = absorb self (xs ++ ys) := by
  fun_induction absorb self xs with
  | case1 self xs h ih =>
    have hlt : BLAKE3_BLOCK_LEN < (xs ++ ys).length := by
      rw [List.length_append]
      omega
    rw [ih, absorb_of_lt hlt, blockOf_append_of_le (Nat.le_of_lt h),
      List.drop_append_of_le_length (Nat.le_of_lt h)]
  | case2 self xs h =>
    rw [chunkStateUpdate_eq rfl rfl (Nat.le_of_not_lt h), absorb_buffer]

/-! ## Chunks as nodes of the tree -/

/-- A fresh state for the chunk of this number. -/
def freshChunk (key : CVWords) (flags : UInt8) (counter : U64) : ChunkState :=
  { chunkStateInit key flags with chunkCounter := counter }

/-- The node of a chunk. -/
def chunkOutput (key : CVWords) (flags : UInt8) (counter : U64) (bytes : Bytes) : Output :=
  chunkStateOutput (absorb (freshChunk key flags counter) bytes)

theorem absorb_freshChunk_nil (key : CVWords) (flags : UInt8) (counter : U64) :
    absorb (freshChunk key flags counter) [] = freshChunk key flags counter := by
  rw [absorb_of_le (by simp), blockOf_nil]
  rfl

theorem chunkStateUpdate_freshChunk (key : CVWords) (flags : UInt8) (counter : U64)
    (bytes : Bytes) : chunkStateUpdate (freshChunk key flags counter) bytes =
      absorb (freshChunk key flags counter) bytes := by
  rw [← absorb_freshChunk_nil, chunkStateUpdate_absorb, List.nil_append, absorb_freshChunk_nil]

/-- A state that is reset keeps nothing but its flags. -/
theorem chunkStateReset_absorb (self : ChunkState) (bytes : Bytes) (key : CVWords)
    (counter : U64) :
    chunkStateReset (absorb self bytes) key counter = freshChunk key self.flags counter := by
  rw [chunkStateReset, flags_absorb]
  rfl

/-- The blocks of `hash_one_portable` are those of a chunk. -/
theorem hashBlocks_eq (self : ChunkState) {n : ℕ} {bytes : Bytes}
    (h : bytes.length = BLAKE3_BLOCK_LEN * (n + 1)) :
    storeCVWords (hashBlocks self.chunkCounter self.flags CHUNK_END self.cv bytes (n + 1)
      (self.flags ||| chunkStateMaybeStartFlag self)) =
      outputChainingValue (chunkStateOutput (absorb self bytes)) := by
  induction n generalizing self bytes with
  | zero =>
    rw [absorb_of_le (by omega), hashBlocks, if_pos rfl, hashBlocks]
    simp only [outputChainingValue, chunkStateOutput, h, Nat.zero_add, Nat.mul_one]
    rfl
  | succ n ih =>
    have hlt : BLAKE3_BLOCK_LEN < bytes.length := by
      unfold BLAKE3_BLOCK_LEN at *
      omega
    have hdrop : (bytes.drop BLAKE3_BLOCK_LEN).length = BLAKE3_BLOCK_LEN * (n + 1) := by
      rw [List.length_drop, h]
      unfold BLAKE3_BLOCK_LEN
      omega
    -- later blocks have no start flag
    have hnext := ih (compressBlock self (blockOf bytes)) hdrop
    rw [← absorb_of_lt hlt] at hnext
    rw [hashBlocks, if_neg (by omega), ← hnext]
    simp [chunkStateMaybeStartFlag, compressBlock]

/-- **The path for many full chunks** gives the same chaining values. -/
theorem hashOne_eq_chunkCV (key : CVWords) (flags : UInt8) (counter : U64) {bytes : Bytes}
    (h : bytes.length = BLAKE3_CHUNK_LEN) :
    hashOne bytes (BLAKE3_CHUNK_LEN / BLAKE3_BLOCK_LEN) key counter flags CHUNK_START CHUNK_END =
      outputChainingValue (chunkOutput key flags counter bytes) :=
  hashBlocks_eq (freshChunk key flags counter) h

end Dataprint.Blake3
