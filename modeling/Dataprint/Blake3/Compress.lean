import Dataprint.Simdjson

/-!
# The Compression Function of BLAKE3

`lib/blake3/blake3_portable.c` with the helpers of `blake3_impl.h`: seven rounds over a state of
sixteen words, and the two ways to read a result from it.  The accelerated versions are taken to
compute the same.

- `take_compressXof` — the first half of an extended output is the chaining value.
-/

namespace Dataprint.Blake3

/-- `uint32_t`. -/
abbrev U32 := BitVec 32

/-- A chaining value in words, as the compression function holds it. -/
abbrev CVWords := Vector U32 8

/-- A chaining value in bytes, as the tree holds it. -/
abbrev CV := Vector UInt8 32

/-- `uint8_t block[BLAKE3_BLOCK_LEN]`. -/
abbrev Block := Vector UInt8 64

/-! ## Flags and constants -/

def CHUNK_START : UInt8 := 1 <<< (0 : UInt8)
def CHUNK_END : UInt8 := 1 <<< (1 : UInt8)
def PARENT : UInt8 := 1 <<< (2 : UInt8)
def ROOT : UInt8 := 1 <<< (3 : UInt8)

def BLAKE3_OUT_LEN : ℕ := 32
def BLAKE3_BLOCK_LEN : ℕ := 64
def BLAKE3_CHUNK_LEN : ℕ := 1024
def BLAKE3_MAX_DEPTH : ℕ := 54

def IV : CVWords :=
  #v[0x6A09E667, 0xBB67AE85, 0x3C6EF372, 0xA54FF53A, 0x510E527F, 0x9B05688C, 0x1F83D9AB, 0x5BE0CD19]

def MSG_SCHEDULE : Vector (Vector (Fin 16) 16) 7 := #v[
  #v[0, 1, 2, 3, 4, 5, 6, 7, 8, 9, 10, 11, 12, 13, 14, 15],
  #v[2, 6, 3, 10, 7, 0, 4, 13, 1, 11, 12, 5, 9, 14, 15, 8],
  #v[3, 4, 10, 12, 13, 2, 7, 14, 6, 5, 9, 0, 11, 15, 8, 1],
  #v[10, 7, 12, 9, 14, 3, 13, 15, 4, 0, 11, 2, 5, 8, 1, 6],
  #v[12, 13, 9, 11, 15, 10, 14, 8, 7, 2, 5, 3, 0, 1, 6, 4],
  #v[9, 14, 11, 5, 8, 12, 15, 1, 13, 3, 0, 10, 2, 6, 4, 7],
  #v[11, 15, 5, 0, 1, 9, 8, 6, 14, 10, 2, 12, 3, 4, 7, 13]]

/-! ## Bytes and words -/

/-- `memcpy(dest + off, src, src_len)` into a buffer that has space for it. -/
def memcpy {n : ℕ} (dest : Vector UInt8 n) (off : ℕ) (src : Bytes) : Vector UInt8 n :=
  Vector.ofFn fun i =>
    if off ≤ i.val ∧ i.val < off + src.length then src.getD (i.val - off) 0 else dest[i]

/-- The block at the start of some bytes, with zeros behind their end. -/
@[irreducible] def blockOf (bytes : Bytes) : Block := Vector.ofFn fun i => bytes.getD i.val 0

def load32 (p₀ p₁ p₂ p₃ : UInt8) : U32 :=
  p₀.toBitVec.setWidth 32 <<< 0 ||| p₁.toBitVec.setWidth 32 <<< 8 |||
    p₂.toBitVec.setWidth 32 <<< 16 ||| p₃.toBitVec.setWidth 32 <<< 24

/-- The words of a block. -/
def loadWords {n : ℕ} (bytes : Vector UInt8 (n * 4)) : Vector U32 n :=
  Vector.ofFn fun i =>
    load32 bytes[i.val * 4] bytes[i.val * 4 + 1] bytes[i.val * 4 + 2] bytes[i.val * 4 + 3]

/-- Byte `k` of `store32`. -/
def store32 (w : U32) (k : Fin 4) : UInt8 := ⟨(w >>> (8 * k.val)).setWidth 8⟩

/-- `store_cv_words`, and the stores at the end of `blake3_compress_xof_portable`. -/
@[irreducible] def storeWords {n : ℕ} (words : Vector U32 n) : Vector UInt8 (n * 4) :=
  Vector.ofFn fun i => store32 words[i.val / 4] ⟨i.val % 4, Nat.mod_lt _ (by omega)⟩

/-! ## Rounds -/

def rotr32 (w : U32) (c : ℕ) : U32 := (w >>> c) ||| (w <<< (32 - c))

def g (state : Vector U32 16) (a b c d : Fin 16) (x y : U32) : Vector U32 16 :=
  let state := state.set a (state[a] + state[b] + x)
  let state := state.set d (rotr32 (state[d] ^^^ state[a]) 16)
  let state := state.set c (state[c] + state[d])
  let state := state.set b (rotr32 (state[b] ^^^ state[c]) 12)
  let state := state.set a (state[a] + state[b] + y)
  let state := state.set d (rotr32 (state[d] ^^^ state[a]) 8)
  let state := state.set c (state[c] + state[d])
  state.set b (rotr32 (state[b] ^^^ state[c]) 7)

def roundFn (state : Vector U32 16) (msg : Vector U32 16) (round : Fin 7) : Vector U32 16 :=
  let schedule := MSG_SCHEDULE[round]
  -- the columns
  let state := g state 0 4 8 12 msg[schedule[0]] msg[schedule[1]]
  let state := g state 1 5 9 13 msg[schedule[2]] msg[schedule[3]]
  let state := g state 2 6 10 14 msg[schedule[4]] msg[schedule[5]]
  let state := g state 3 7 11 15 msg[schedule[6]] msg[schedule[7]]
  -- the rows
  let state := g state 0 5 10 15 msg[schedule[8]] msg[schedule[9]]
  let state := g state 1 6 11 12 msg[schedule[10]] msg[schedule[11]]
  let state := g state 2 7 8 13 msg[schedule[12]] msg[schedule[13]]
  g state 3 4 9 14 msg[schedule[14]] msg[schedule[15]]

@[irreducible] def compressPre (cv : CVWords) (block : Block) (blockLen : ℕ) (counter : U64) (flags : UInt8) :
    Vector U32 16 :=
  let blockWords : Vector U32 16 := loadWords block
  let state : Vector U32 16 := #v[cv[0], cv[1], cv[2], cv[3], cv[4], cv[5], cv[6], cv[7],
    IV[0], IV[1], IV[2], IV[3], counter.setWidth 32, (counter >>> 32).setWidth 32,
    BitVec.ofNat 32 blockLen, flags.toBitVec.setWidth 32]
  let state := roundFn state blockWords 0
  let state := roundFn state blockWords 1
  let state := roundFn state blockWords 2
  let state := roundFn state blockWords 3
  let state := roundFn state blockWords 4
  let state := roundFn state blockWords 5
  roundFn state blockWords 6

/-- The new chaining value. -/
@[irreducible] def compressInPlace (cv : CVWords) (block : Block) (blockLen : ℕ) (counter : U64)
    (flags : UInt8) : CVWords :=
  let state := compressPre cv block blockLen counter flags
  Vector.ofFn fun i : Fin 8 => state[i.val] ^^^ state[i.val + 8]

/-- A block of extended output. -/
def compressXof (cv : CVWords) (block : Block) (blockLen : ℕ) (counter : U64) (flags : UInt8) :
    Block :=
  let state := compressPre cv block blockLen counter flags
  storeWords (Vector.ofFn fun i : Fin 16 =>
    if h : i.val < 8 then state[i.val] ^^^ state[i.val + 8] else state[i] ^^^ cv[i.val - 8])

/-- The words of a chaining value as bytes. -/
def storeCVWords (words : CVWords) : CV := storeWords words

/-- **The first half of an extended output is the chaining value** of the same block. -/
theorem take_compressXof (cv : CVWords) (block : Block) (blockLen : ℕ) (counter : U64)
    (flags : UInt8) :
    (compressXof cv block blockLen counter flags).toList.take BLAKE3_OUT_LEN =
      (storeCVWords (compressInPlace cv block blockLen counter flags)).toList := by
  apply List.ext_getElem
  · simp [BLAKE3_OUT_LEN]
  · intro i hi hi'
    rw [Vector.length_toList] at hi'
    have hword : i / 4 < 8 := by omega
    simp [compressXof, storeCVWords, compressInPlace, storeWords, hword]

/-! ## Whole inputs -/

/-- The loop of `hash_one_portable`. -/
def hashBlocks (counter : U64) (flags flagsEnd : UInt8) :
    CVWords → Bytes → ℕ → UInt8 → CVWords
  | cv, _, 0, _ => cv
  | cv, input, blocks + 1, blockFlags =>
    let blockFlags := if blocks = 0 then blockFlags ||| flagsEnd else blockFlags
    let cv := compressInPlace cv (blockOf input) BLAKE3_BLOCK_LEN counter blockFlags
    hashBlocks counter flags flagsEnd cv (input.drop BLAKE3_BLOCK_LEN) blocks flags

/-- `hash_one_portable`: the chaining value of an input of so many full blocks. -/
def hashOne (input : Bytes) (blocks : ℕ) (key : CVWords) (counter : U64)
    (flags flagsStart flagsEnd : UInt8) : CV :=
  storeCVWords (hashBlocks counter flags flagsEnd key input blocks (flags ||| flagsStart))

/-- `blake3_hash_many_portable`. -/
def hashMany (blocks : ℕ) (key : CVWords) (incrementCounter : Bool)
    (flags flagsStart flagsEnd : UInt8) : List Bytes → U64 → List CV
  | [], _ => []
  | input :: inputs, counter =>
    hashOne input blocks key counter flags flagsStart flagsEnd ::
      hashMany blocks key incrementCounter flags flagsStart flagsEnd inputs
        (if incrementCounter then counter + 1 else counter)

end Dataprint.Blake3
