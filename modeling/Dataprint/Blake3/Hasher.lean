import Dataprint.Blake3.Subtree

/-!
# The Hasher

`blake3_hasher` (`lib/blake3/blake3.c`) takes its input in updates of any length.  The roots of
complete subtrees wait on a stack of 55 chaining values.  They are merged late, just before the next
one is pushed, so that the last node is still open when the hasher is finalized.

- `popcnt_eq` — the number of bits tells how far to merge;
- `hasherUpdate_spec` — every update keeps the invariant `Absorbed`, and the stack has space;
- `rootOutput_spec` — what is open at the end is the tree over all the bytes;
- `finalize_hasherUpdates` — so a digest depends neither on the updates nor on the processor.
-/

namespace Dataprint.Blake3

open Foundations

/-- `blake3_hasher`.  The head of the list is the top of the stack. -/
structure Hasher where
  key : CVWords
  chunk : ChunkState
  cvStack : List CV
  deriving DecidableEq, Inhabited

def hasherInitBase (key : CVWords) (flags : UInt8) : Hasher where
  key := key
  chunk := chunkStateInit key flags
  cvStack := []

def hasherInit : Hasher := hasherInitBase IV 0

theorem toNat_and_pred_lt {x : U64} (h : x ≠ 0) : (x &&& (x - 1)).toNat < x.toNat := by
  have hpos : 0 < x.toNat := Nat.pos_of_ne_zero fun hzero => h (BitVec.eq_of_toNat_eq hzero)
  have hle : (x &&& (x - 1)).toNat ≤ (x - 1).toNat := by
    rw [BitVec.toNat_and]
    exact Nat.and_le_right
  have hpred : (x - 1).toNat = x.toNat - 1 := BitVec.toNat_sub_of_le (by bv_omega)
  omega

/-- The number of 1-bits, by taking the lowest away. -/
def popcnt (x : U64) : ℕ := if _h : x ≠ 0 then popcnt (x &&& (x - 1)) + 1 else 0
termination_by x.toNat
decreasing_by exact toNat_and_pred_lt _h

/-- Merges the subtrees that are complete at this number of chunks. -/
def hasherMergeCVStack (self : Hasher) (totalLen : U64) : Hasher :=
  { self with
    cvStack := mergeStack (parentCV self.key self.chunk.flags) (popcnt totalLen) self.cvStack }

/-- Merges late, then pushes.  There is no result for a push over the end of the stack. -/
def hasherPushCV (self : Hasher) (newCV : CV) (chunkCounter : U64) : Option Hasher :=
  let self := hasherMergeCVStack self chunkCounter
  if self.cvStack.length < BLAKE3_MAX_DEPTH + 1 then
    some { self with cvStack := newCV :: self.cvStack }
  else none

/-- The inner loop of `blake3_hasher_update_base`: the subtree has to divide what is there. -/
def shrinkSubtree (subtreeLen countSoFar : ℕ) : ℕ :=
  if _h : (subtreeLen - 1) &&& countSoFar ≠ 0 then shrinkSubtree (subtreeLen / 2) countSoFar
  else subtreeLen
termination_by subtreeLen
decreasing_by
  have hpos : subtreeLen - 1 ≠ 0 := by
    intro hzero
    rw [hzero, Nat.zero_and] at _h
    exact _h rfl
  omega

theorem shrinkSubtree_pos {subtreeLen : ℕ} (h : 0 < subtreeLen) (countSoFar : ℕ) :
    0 < shrinkSubtree subtreeLen countSoFar := by
  fun_induction shrinkSubtree subtreeLen countSoFar with
  | case1 subtreeLen hmask ih =>
    apply ih
    have hpos : subtreeLen - 1 ≠ 0 := by
      intro hzero
      rw [hzero, Nat.zero_and] at hmask
      exact hmask rfl
    omega
  | case2 subtreeLen hmask => exact h

section Update

variable (P : Platform)

/-- Hashes the next subtree and pushes its root, or the two nodes below its root. -/
def pushSubtree (self : Hasher) (input : Bytes) (subtreeLen : ℕ) : Option Hasher :=
  let subtreeChunks := subtreeLen / BLAKE3_CHUNK_LEN
  if subtreeLen ≤ BLAKE3_CHUNK_LEN then
    let chunkState := freshChunk self.key self.chunk.flags self.chunk.chunkCounter
    let chunkState := chunkStateUpdate chunkState (input.take subtreeLen)
    hasherPushCV self (outputChainingValue (chunkStateOutput chunkState)) chunkState.chunkCounter
  else do
    let cvPair := compressSubtreeToParentNode self.key self.chunk.flags P (input.take subtreeLen)
      self.chunk.chunkCounter
    let self ← hasherPushCV self cvPair.1 self.chunk.chunkCounter
    hasherPushCV self cvPair.2 (self.chunk.chunkCounter + BitVec.ofNat 64 (subtreeChunks / 2))

/-- `self->chunk.chunk_counter += subtree_chunks`. -/
def addChunks (self : Hasher) (subtreeChunks : ℕ) : Hasher :=
  { self with chunk := { self.chunk with
      chunkCounter := self.chunk.chunkCounter + BitVec.ofNat 64 subtreeChunks } }

/-- The loop of `blake3_hasher_update_base`, and what comes behind it. -/
def updateSubtrees (self : Hasher) (input : Bytes) : Option Hasher :=
  if _h : BLAKE3_CHUNK_LEN < input.length then
    let countSoFar := self.chunk.chunkCounter * BitVec.ofNat 64 BLAKE3_CHUNK_LEN
    let subtreeLen := shrinkSubtree (roundDownToPowerOf2 input.length) countSoFar.toNat
    (pushSubtree P self input subtreeLen).bind fun self =>
      updateSubtrees (addChunks self (subtreeLen / BLAKE3_CHUNK_LEN)) (input.drop subtreeLen)
  else if input.length > 0 then
    let self := { self with chunk := chunkStateUpdate self.chunk input }
    some (hasherMergeCVStack self self.chunk.chunkCounter)
  else some self
termination_by input.length
decreasing_by
  rw [List.length_drop]
  exact Nat.sub_lt (Nat.zero_lt_of_lt _h)
    (shrinkSubtree_pos (roundDownToPowerOf2_pos (Nat.zero_lt_of_lt _h)) _)

/-- The open chunk is full, and more is coming: its root is pushed, and the next chunk opened. -/
def finishChunk (self : Hasher) : Option Hasher := do
  let chunkCV := outputChainingValue (chunkStateOutput self.chunk)
  let self ← hasherPushCV self chunkCV self.chunk.chunkCounter
  let chunk := chunkStateReset self.chunk self.key (self.chunk.chunkCounter + 1)
  some { self with chunk := chunk }

/-- `blake3_hasher_update`. -/
def hasherUpdate (self : Hasher) (input : Bytes) : Option Hasher :=
  if input.length = 0 then some self
  else if chunkStateLen self.chunk > 0 then
    let take := BLAKE3_CHUNK_LEN - chunkStateLen self.chunk
    let take := if take > input.length then input.length else take
    let self := { self with chunk := chunkStateUpdate self.chunk (input.take take) }
    let input := input.drop take
    if input.length > 0 then (finishChunk self).bind fun self => updateSubtrees P self input
    else some self
  else updateSubtrees P self input

end Update

/-! ## Finalization -/

/-- `blake3_xof_many`. -/
def xofMany (self : Output) (counter : ℕ) : ℕ → Bytes
  | 0 => []
  | outblocks + 1 =>
    (compressXof self.inputCV self.block self.blockLen (BitVec.ofNat 64 counter)
      (self.flags ||| ROOT)).toList ++ xofMany self (counter + 1) outblocks

/-- `output_root_bytes`: extended output from the byte `seek` on. -/
def outputRootBytes (self : Output) (seek outLen : ℕ) : Bytes :=
  let wideBuf (counter : ℕ) := (compressXof self.inputCV self.block self.blockLen
    (BitVec.ofNat 64 counter) (self.flags ||| ROOT)).toList
  if outLen = 0 then []
  else
    let outputBlockCounter := seek / 64
    let offsetWithinBlock := seek % 64
    let availableBytes := 64 - offsetWithinBlock
    let bytes := if outLen > availableBytes then availableBytes else outLen
    let (out, outputBlockCounter, outLen) :=
      if offsetWithinBlock ≠ 0 then
        (((wideBuf outputBlockCounter).drop offsetWithinBlock).take bytes, outputBlockCounter + 1,
          outLen - bytes)
      else ([], outputBlockCounter, outLen)
    let out := out ++ xofMany self outputBlockCounter (outLen / 64)
    let outputBlockCounter := outputBlockCounter + outLen / 64
    let outLen := outLen - outLen / 64 * 64
    if outLen ≠ 0 then out ++ (wideBuf outputBlockCounter).take outLen else out

/-- The last loop of `blake3_hasher_finalize_seek`. -/
def rollUp (key : CVWords) (flags : UInt8) (output : Output) (cvs : List CV) : Output :=
  cvs.foldl (fun output cv => parentOutput (cv ++ outputChainingValue output) key flags) output

/-- The open node at the top of the tree.  There is none if a single chaining value stands on the
stack and the chunk is empty. -/
def rootOutput (self : Hasher) : Option Output :=
  if self.cvStack.length = 0 then some (chunkStateOutput self.chunk)
  else if chunkStateLen self.chunk > 0 then
    some (rollUp self.key self.chunk.flags (chunkStateOutput self.chunk) self.cvStack)
  else
    match self.cvStack with
    | right :: left :: cvsRemaining =>
      some (rollUp self.key self.chunk.flags
        (parentOutput (left ++ right) self.key self.chunk.flags) cvsRemaining)
    | _ => none

def hasherFinalizeSeek (self : Hasher) (seek outLen : ℕ) : Option Bytes :=
  if outLen = 0 then some []
  else (rootOutput self).map fun output => outputRootBytes output seek outLen

def hasherFinalize (self : Hasher) (outLen : ℕ) : Option Bytes := hasherFinalizeSeek self 0 outLen

/-! ## The stack -/

/-- **Clearing the lowest bit** as often as there is one counts the bits. -/
theorem popcnt_eq (x : U64) : popcnt x = bitCount x.toNat := by
  fun_induction popcnt x with
  | case1 x hx ih =>
    have hpos : x.toNat ≠ 0 := fun hzero => hx (BitVec.eq_of_toNat_eq hzero)
    have hpred : (x - 1).toNat = x.toNat - 1 := BitVec.toNat_sub_of_le (by bv_omega)
    rw [ih, BitVec.toNat_and, hpred, bitCount_and_pred hpos]
  | case2 x hx =>
    obtain rfl : x = 0 := not_not.mp hx
    simp

section Invariant

variable {key : CVWords} {flags : UInt8}

/-- The stack holds the roots of these subtrees. -/
def Holds (key : CVWords) (flags : UInt8) (segs : List (List CV)) (stack : List CV) : Prop :=
  stack = (segs.map (treeFold (parentCV key flags))).reverse

/-- **Merging** leaves the roots of subtrees of different sizes. -/
theorem hasherMergeCVStack_spec {self : Hasher} {segs : List (List CV)} {n : ℕ}
    (hkey : self.key = key) (hflags : self.chunk.flags = flags)
    (hstack : Holds key flags segs self.cvStack) (hlazy : Lazy segs)
    (hn : segs.flatten.length = n) (hlt : n < 2 ^ 64) :
    ∃ segs', Peaks segs' ∧ segs'.flatten = segs.flatten ∧
      Holds key flags segs' (hasherMergeCVStack self (BitVec.ofNat 64 n)).cvStack := by
  obtain ⟨segs', hpeaks, hflatten, hmerge⟩ := hlazy.exists_merge (parentCV key flags)
  refine ⟨segs', hpeaks, hflatten, ?_⟩
  rw [Holds, hasherMergeCVStack, hkey, hflags, hstack, popcnt_eq, BitVec.toNat_ofNat,
    Nat.mod_eq_of_lt hlt, ← hn]
  exact hmerge

/-- **A push** has space on the stack, below `2 ^ 54` chunks. -/
theorem hasherPushCV_spec {self : Hasher} {segs : List (List CV)} {t : List CV} {n k : ℕ}
    (hkey : self.key = key) (hflags : self.chunk.flags = flags)
    (hstack : Holds key flags segs self.cvStack) (hlazy : Lazy segs)
    (hn : segs.flatten.length = n) (hlt : n < 2 ^ BLAKE3_MAX_DEPTH) (ht : t.length = 2 ^ k)
    (hdvd : 2 ^ k ∣ n) :
    ∃ self' below, hasherPushCV self (treeFold (parentCV key flags) t) (BitVec.ofNat 64 n) =
        some self' ∧ self'.key = key ∧ self'.chunk = self.chunk ∧ Pending below t ∧
      below.flatten = segs.flatten ∧ Holds key flags (below ++ [t]) self'.cvStack := by
  have hlt64 : n < 2 ^ 64 := Nat.lt_of_lt_of_le hlt (Nat.pow_le_pow_right (by omega) (by decide))
  obtain ⟨below, hpeaks, hflatten, hholds⟩ :=
    hasherMergeCVStack_spec hkey hflags hstack hlazy hn hlt64
  have hheight : (hasherMergeCVStack self (BitVec.ofNat 64 n)).cvStack.length <
      BLAKE3_MAX_DEPTH + 1 := by
    rw [hholds, List.length_reverse, List.length_map, hpeaks.length_eq, hflatten, hn]
    exact Nat.lt_succ_of_le (bitCount_le hlt)
  refine ⟨_, below, if_pos hheight, hkey, rfl, hpeaks.pending ht (by rwa [hflatten, hn]),
    hflatten, ?_⟩
  rw [Holds, reverse_map_concat, ← hholds]

/-! ## Updates -/

/-- The hasher has taken in the bytes `full ++ tail`: full chunks, of which the stack holds the
subtrees, and the bytes of the chunk that is open. -/
structure Absorbed (key : CVWords) (flags : UInt8) (full tail : Bytes) (n : ℕ)
    (segs : List (List CV)) (hasher : Hasher) : Prop where
  key_eq : hasher.key = key
  chunk_eq : hasher.chunk = absorb (freshChunk key flags (BitVec.ofNat 64 n)) tail
  length_full : full.length = BLAKE3_CHUNK_LEN * n
  tail_le : tail.length ≤ BLAKE3_CHUNK_LEN
  flatten_eq : segs.flatten = leaves key flags full 0
  holds : Holds key flags segs hasher.cvStack
  lazy : Lazy segs

/-- Between updates the stack is merged if the open chunk has bytes, and otherwise the last two
subtrees on it are still apart. -/
structure Settled (tail : Bytes) (segs : List (List CV)) : Prop where
  peaks : tail ≠ [] → Peaks segs
  two_le : tail = [] → segs ≠ [] → 2 ≤ segs.length

theorem Settled.init : Settled [] [] := ⟨fun hne => absurd rfl hne, fun _ hne => absurd rfl hne⟩

namespace Absorbed

variable {full tail : Bytes} {n : ℕ} {segs : List (List CV)} {self : Hasher}

theorem init (key : CVWords) (flags : UInt8) :
    Absorbed key flags [] [] 0 [] (hasherInitBase key flags) where
  key_eq := rfl
  chunk_eq := (absorb_freshChunk_nil key flags _).symm
  length_full := rfl
  tail_le := Nat.zero_le _
  flatten_eq := (leaves_nil key flags 0).symm
  holds := rfl
  lazy := Or.inl rfl

theorem flags_eq (h : Absorbed key flags full tail n segs self) : self.chunk.flags = flags := by
  rw [h.chunk_eq, flags_absorb]
  rfl

theorem chunkCounter_eq (h : Absorbed key flags full tail n segs self) :
    self.chunk.chunkCounter = BitVec.ofNat 64 n := by
  rw [h.chunk_eq, chunkCounter_absorb]
  rfl

theorem chunkStateLen_eq (h : Absorbed key flags full tail n segs self) :
    chunkStateLen self.chunk = tail.length := by
  rw [h.chunk_eq, chunkStateLen_absorb]
  simp [freshChunk, chunkStateInit]

theorem length_flatten (h : Absorbed key flags full tail n segs self) :
    segs.flatten.length = n := by
  rw [h.flatten_eq, length_leaves, h.length_full]
  simp only [BLAKE3_CHUNK_LEN]
  omega

/-- More whole chunks behind the ones that are there. -/
theorem leaves_append (h : Absorbed key flags full tail n segs self) (ys : Bytes) :
    leaves key flags (full ++ ys) 0 =
      segs.flatten ++ leaves key flags ys (BitVec.ofNat 64 n) := by
  have hzero : (0 : U64) + BitVec.ofNat 64 n = BitVec.ofNat 64 n := BitVec.zero_add _
  rw [Blake3.leaves_append key flags h.length_full, h.flatten_eq, hzero]

end Absorbed

/-- The number of chunks stays below the bound of the stack. -/
theorem lt_maxDepth {n m : ℕ} (h : BLAKE3_CHUNK_LEN * n + m < 2 ^ 64) : n < 2 ^ BLAKE3_MAX_DEPTH := by
  simp only [BLAKE3_CHUNK_LEN, BLAKE3_MAX_DEPTH] at *
  omega

/-- Before the last push the stack held a subtree for every 1-bit. -/
theorem Absorbed.length_cvStack_le {full tail : Bytes} {n : ℕ} {segs : List (List CV)}
    {self : Hasher} (h : Absorbed key flags full tail n segs self) (hbound : full.length < 2 ^ 64) :
    self.cvStack.length ≤ BLAKE3_MAX_DEPTH + 1 := by
  have hn : n < 2 ^ BLAKE3_MAX_DEPTH := by
    rw [h.length_full] at hbound
    exact @lt_maxDepth n 0 hbound
  have hflatten := h.length_flatten
  rw [h.holds, List.length_reverse, List.length_map]
  obtain rfl | ⟨below, t, rfl, hpending⟩ := h.lazy
  · exact Nat.zero_le _
  · rw [List.flatten_concat, List.length_append] at hflatten
    rw [List.length_append, List.length_singleton, hpending.peaks.length_eq]
    apply Nat.succ_le_succ
    apply bitCount_le
    omega

/-- **Shrinking** stops at a number of chunks that divides what is there. -/
theorem shrinkSubtree_spec (b n : ℕ) :
    ∃ m ≤ b, shrinkSubtree (BLAKE3_CHUNK_LEN * 2 ^ b) (n * BLAKE3_CHUNK_LEN) =
      BLAKE3_CHUNK_LEN * 2 ^ m ∧ 2 ^ m ∣ n := by
  have hpow : ∀ b, BLAKE3_CHUNK_LEN * 2 ^ b = 2 ^ (10 + b) := by
    intro b
    rw [Nat.pow_add]
    rfl
  have hmask : ∀ b, (BLAKE3_CHUNK_LEN * 2 ^ b - 1) &&& (n * BLAKE3_CHUNK_LEN) =
      n * BLAKE3_CHUNK_LEN % (BLAKE3_CHUNK_LEN * 2 ^ b) := by
    intro b
    rw [hpow, Nat.and_comm, Nat.and_two_pow_sub_one_eq_mod]
  induction b with
  | zero =>
    refine ⟨0, Nat.le_refl 0, ?_, Nat.one_dvd n⟩
    rw [shrinkSubtree, dif_neg]
    rw [hmask, Nat.pow_zero, Nat.mul_one, Nat.mul_mod_left]
    simp
  | succ b ih =>
    rw [shrinkSubtree]
    split
    case isTrue hne =>
      obtain ⟨m, hm, hshrink, hdvd⟩ := ih
      have hhalf : BLAKE3_CHUNK_LEN * 2 ^ (b + 1) / 2 = BLAKE3_CHUNK_LEN * 2 ^ b := by
        rw [Nat.pow_succ, ← Nat.mul_assoc]
        exact Nat.mul_div_cancel _ (by omega)
      exact ⟨m, by omega, by rw [hhalf, hshrink], hdvd⟩
    case isFalse heq =>
      refine ⟨b + 1, Nat.le_refl _, rfl, ?_⟩
      rw [not_not, hmask, Nat.mul_comm n] at heq
      exact Nat.dvd_of_mul_dvd_mul_left (by decide) (Nat.dvd_of_mod_eq_zero heq)

section Step

variable (P : Platform) {full tail : Bytes} {n : ℕ} {segs : List (List CV)} {self : Hasher}

/-- With the last subtree on top and the counter behind it, the chunks are taken in. -/
theorem Absorbed.pushed (h : Absorbed key flags full [] n segs self) {ys : Bytes} {m : ℕ}
    (hys : ys.length = BLAKE3_CHUNK_LEN * m) {self' : Hasher} {segs' : List (List CV)}
    (hkey : self'.key = key) (hchunk : self'.chunk = self.chunk)
    (hflatten : segs'.flatten = segs.flatten ++ leaves key flags ys (BitVec.ofNat 64 n))
    (hholds : Holds key flags segs' self'.cvStack) (hlazy : Lazy segs') :
    Absorbed key flags (full ++ ys) [] (n + m) segs' (addChunks self' m) where
  key_eq := hkey
  chunk_eq := by
    rw [absorb_freshChunk_nil, BitVec.ofNat_add, addChunks, hchunk, h.chunk_eq,
      absorb_freshChunk_nil]
    rfl
  length_full := by rw [List.length_append, h.length_full, hys, Nat.mul_add]
  tail_le := Nat.zero_le _
  flatten_eq := by rw [h.leaves_append, hflatten]
  holds := hholds
  lazy := hlazy

/-- A single chunk is pushed as it is. -/
theorem Absorbed.pushSubtree_chunk (h : Absorbed key flags full [] n segs self) {input : Bytes}
    (hle : BLAKE3_CHUNK_LEN ≤ input.length) :
    pushSubtree P self input BLAKE3_CHUNK_LEN = hasherPushCV self
      (treeFold (parentCV key flags)
        (leaves key flags (input.take BLAKE3_CHUNK_LEN) (BitVec.ofNat 64 n)))
      (BitVec.ofNat 64 n) := by
  have hpiece : (input.take BLAKE3_CHUNK_LEN).length = BLAKE3_CHUNK_LEN := by simpa using hle
  have hne : input.take BLAKE3_CHUNK_LEN ≠ [] := by
    intro hnil
    rw [hnil] at hpiece
    exact absurd hpiece (by decide)
  rw [leaves_of_le key flags hne (Nat.le_of_eq hpiece), treeFold_singleton]
  simp only [pushSubtree, Nat.le_refl, if_true, h.key_eq, h.flags_eq, h.chunkCounter_eq,
    chunkStateUpdate_freshChunk, chunkCounter_absorb]
  rfl

/-- Of more chunks, the two halves are pushed. -/
theorem Absorbed.pushSubtree_halves (h : Absorbed key flags full [] n segs self) {input : Bytes}
    {m : ℕ} (hle : BLAKE3_CHUNK_LEN * 2 ^ (m + 1) ≤ input.length) :
    let halves := treeHalves (parentCV key flags)
      (leaves key flags (input.take (BLAKE3_CHUNK_LEN * 2 ^ (m + 1))) (BitVec.ofNat 64 n))
    pushSubtree P self input (BLAKE3_CHUNK_LEN * 2 ^ (m + 1)) =
      (hasherPushCV self halves.1 (BitVec.ofNat 64 n)).bind fun self =>
        hasherPushCV self halves.2 (self.chunk.chunkCounter + BitVec.ofNat 64 (2 ^ m)) := by
  have hlarge : BLAKE3_CHUNK_LEN < BLAKE3_CHUNK_LEN * 2 ^ (m + 1) := by
    have hpos := Nat.two_pow_pos m
    simp only [BLAKE3_CHUNK_LEN, Nat.pow_succ]
    omega
  have hpiece : BLAKE3_CHUNK_LEN < (input.take (BLAKE3_CHUNK_LEN * 2 ^ (m + 1))).length := by
    rwa [List.length_take, Nat.min_eq_left hle]
  have hhalf : BLAKE3_CHUNK_LEN * 2 ^ (m + 1) / BLAKE3_CHUNK_LEN / 2 = 2 ^ m := by
    rw [Nat.mul_div_cancel_left _ (by decide), Nat.pow_succ, Nat.mul_div_cancel _ (by decide)]
  simp only [pushSubtree, if_neg (Nat.not_le.mpr hlarge), h.key_eq, h.flags_eq, h.chunkCounter_eq,
    hhalf, compressSubtreeToParentNode_eq key flags P hpiece]
  rfl

/-- **One round of the loop** takes a subtree in.  More than a chunk leaves two subtrees at least. -/
theorem pushSubtree_spec (h : Absorbed key flags full [] n segs self) {input : Bytes} {m : ℕ}
    (hle : BLAKE3_CHUNK_LEN * 2 ^ m ≤ input.length) (hdvd : 2 ^ m ∣ n)
    (hbound : full.length + input.length < 2 ^ 64) :
    ∃ self' segs', pushSubtree P self input (BLAKE3_CHUNK_LEN * 2 ^ m) = some self' ∧
      Absorbed key flags (full ++ input.take (BLAKE3_CHUNK_LEN * 2 ^ m)) [] (n + 2 ^ m) segs'
        (addChunks self' (2 ^ m)) ∧ (0 < m → 2 ≤ segs'.length) := by
  have hpiece : (input.take (BLAKE3_CHUNK_LEN * 2 ^ m)).length = BLAKE3_CHUNK_LEN * 2 ^ m := by
    rw [List.length_take, Nat.min_eq_left hle]
  have hlen : (leaves key flags (input.take (BLAKE3_CHUNK_LEN * 2 ^ m))
      (BitVec.ofNat 64 n)).length = 2 ^ m := by
    rw [length_leaves, hpiece]
    simp only [BLAKE3_CHUNK_LEN]
    omega
  have htotal : BLAKE3_CHUNK_LEN * (n + 2 ^ m) < 2 ^ 64 := by
    rw [Nat.mul_add, ← h.length_full]
    omega
  have hn : n + 2 ^ m < 2 ^ BLAKE3_MAX_DEPTH := lt_maxDepth (m := 0) htotal
  cases m with
  | zero =>
    rw [Nat.pow_zero, Nat.mul_one] at *
    -- the chunk is a leaf of its own
    obtain ⟨self', below, hsome, hkey, hchunk, hpending, hflatten, hholds⟩ :=
      hasherPushCV_spec (k := 0) h.key_eq h.flags_eq h.holds h.lazy h.length_flatten
        (Nat.lt_of_succ_lt hn) hlen (Nat.one_dvd n)
    rw [h.pushSubtree_chunk P hle]
    refine ⟨self', _, hsome, h.pushed (by rw [hpiece, Nat.mul_one]) hkey hchunk ?_ hholds
      (Or.inr ⟨below, _, rfl, hpending⟩), fun hpos => absurd hpos (Nat.lt_irrefl 0)⟩
    rw [List.flatten_concat, hflatten]
  | succ m =>
    -- the leaves of the two halves
    generalize hleaves : leaves key flags (input.take (BLAKE3_CHUNK_LEN * 2 ^ (m + 1)))
      (BitVec.ofNat 64 n) = cvs at hlen
    have hpow : 2 ^ (m + 1) = 2 ^ m + 2 ^ m := by rw [Nat.pow_succ, Nat.mul_two]
    have hpos := Nat.two_pow_pos m
    have hleft : (cvs.take (2 ^ m)).length = 2 ^ m := by
      rw [List.length_take]
      omega
    have hright : (cvs.drop (2 ^ m)).length = 2 ^ m := by
      rw [List.length_drop]
      omega
    have hhalves := treeHalves_append (parentCV key flags) hleft (by omega) (Nat.le_of_eq hright)
    rw [List.take_append_drop] at hhalves
    have hdvd' : 2 ^ m ∣ n := Nat.dvd_trans (Nat.pow_dvd_pow 2 (Nat.le_succ m)) hdvd
    obtain ⟨self₁, below₁, hsome₁, hkey₁, hchunk₁, hpending₁, hflatten₁, hholds₁⟩ :=
      hasherPushCV_spec h.key_eq h.flags_eq h.holds h.lazy h.length_flatten (by omega) hleft hdvd'
    have hflattenLeft : (below₁ ++ [cvs.take (2 ^ m)]).flatten =
        segs.flatten ++ cvs.take (2 ^ m) := by rw [List.flatten_concat, hflatten₁]
    have hlengthLeft : (below₁ ++ [cvs.take (2 ^ m)]).flatten.length = n + 2 ^ m := by
      rw [hflattenLeft, List.length_append, h.length_flatten, hleft]
    obtain ⟨self₂, below₂, hsome₂, hkey₂, hchunk₂, hpending₂, hflatten₂, hholds₂⟩ :=
      hasherPushCV_spec hkey₁ (hchunk₁ ▸ h.flags_eq) hholds₁ (Or.inr ⟨_, _, rfl, hpending₁⟩)
        hlengthLeft (by omega) hright (Nat.dvd_add hdvd' (Nat.dvd_refl _))
    have hcounter : self₁.chunk.chunkCounter + BitVec.ofNat 64 (2 ^ m) =
        BitVec.ofNat 64 (n + 2 ^ m) := by
      rw [hchunk₁, h.chunkCounter_eq, BitVec.ofNat_add]
    refine ⟨self₂, below₂ ++ [cvs.drop (2 ^ m)], ?_,
      h.pushed hpiece hkey₂ (hchunk₂.trans hchunk₁) ?_ hholds₂ (Or.inr ⟨_, _, rfl, hpending₂⟩), ?_⟩
    · rw [h.pushSubtree_halves P hle, hleaves]
      simp only [hhalves, hsome₁, Option.bind_some, hcounter, hsome₂]
    · rw [List.flatten_concat, hflatten₂, hflattenLeft, List.append_assoc, List.take_append_drop,
        hleaves]
    · -- the left half is still there
      intro _
      have hbelow : below₂ ≠ [] := by
        rintro rfl
        rw [hflattenLeft] at hflatten₂
        have hlength := congrArg List.length hflatten₂
        simp only [List.flatten_nil, List.length_nil, List.length_append, hleft] at hlength
        omega
      have hbelowPos := List.length_pos_iff.mpr hbelow
      rw [List.length_append, List.length_singleton]
      omega

/-- **The loop** takes in all that is left, once the open chunk is empty. -/
theorem updateSubtrees_spec (h : Absorbed key flags full [] n segs self) {input : Bytes}
    (hsettled : input = [] → Settled [] segs) (hbound : full.length + input.length < 2 ^ 64) :
    ∃ self' full' tail' n' segs', updateSubtrees P self input = some self' ∧
      Absorbed key flags full' tail' n' segs' self' ∧ Settled tail' segs' ∧
      full' ++ tail' = full ++ input := by
  induction hlength : input.length using Nat.strongRecOn generalizing input full n segs self with
  | ind len ih =>
    subst hlength
    rw [updateSubtrees]
    by_cases hlarge : BLAKE3_CHUNK_LEN < input.length
    · -- a subtree of `2 ^ m` chunks
      rw [dif_pos hlarge]
      have hlow := Nat.log2_self_le (n := input.length) (by omega)
      have hten : 10 ≤ input.length.log2 :=
        (Nat.le_log2 (by omega)).mpr (Nat.le_of_lt hlarge)
      have hround : roundDownToPowerOf2 input.length =
          BLAKE3_CHUNK_LEN * 2 ^ (input.length.log2 - 10) := by
        rw [roundDownToPowerOf2_eq (by omega), ← Nat.pow_sub_mul_pow 2 hten, Nat.mul_comm]
        rfl
      have hcount : (self.chunk.chunkCounter * BitVec.ofNat 64 BLAKE3_CHUNK_LEN).toNat =
          n * BLAKE3_CHUNK_LEN := by
        rw [h.chunkCounter_eq, ← BitVec.ofNat_mul, BitVec.toNat_ofNat, Nat.mul_comm,
          ← h.length_full]
        exact Nat.mod_eq_of_lt (by omega)
      obtain ⟨m, hm, hshrink, hdvd⟩ := shrinkSubtree_spec (input.length.log2 - 10) n
      have hle : BLAKE3_CHUNK_LEN * 2 ^ m ≤ input.length := by
        refine Nat.le_trans (Nat.mul_le_mul_left _ (Nat.pow_le_pow_right (by omega) hm)) ?_
        rw [← hround, roundDownToPowerOf2_eq (by omega)]
        exact hlow
      have hpos : 0 < BLAKE3_CHUNK_LEN * 2 ^ m := Nat.mul_pos (by decide) (Nat.two_pow_pos m)
      obtain ⟨self₁, segs₁, hsome, habsorbed, htwo⟩ := pushSubtree_spec P h hle hdvd hbound
      have hrest : input.drop (BLAKE3_CHUNK_LEN * 2 ^ m) = [] → Settled [] segs₁ := by
        intro hnil
        refine ⟨fun hne => absurd rfl hne, fun _ _ => htwo ?_⟩
        have hend := List.drop_eq_nil_iff.mp hnil
        by_contra hzero
        rw [Nat.eq_zero_of_not_pos hzero, Nat.pow_zero] at hend
        omega
      have hlengths : (full ++ input.take (BLAKE3_CHUNK_LEN * 2 ^ m)).length +
          (input.drop (BLAKE3_CHUNK_LEN * 2 ^ m)).length < 2 ^ 64 := by
        rw [List.length_append, List.length_take, List.length_drop]
        omega
      obtain ⟨self', full', tail', n', segs', hupdate, hresult⟩ :=
        ih _ (by rw [List.length_drop]; omega) habsorbed hrest hlengths rfl
      rw [List.append_assoc, List.take_append_drop] at hresult
      refine ⟨self', full', tail', n', segs', ?_, hresult⟩
      simp only [hround, hcount, hshrink, hsome, Option.bind_some,
        Nat.mul_div_cancel_left _ (show 0 < BLAKE3_CHUNK_LEN by decide), hupdate]
    · rw [dif_neg hlarge]
      by_cases hpos : input.length > 0
      · -- the last chunk stays open, and the stack is merged below it
        rw [if_pos hpos]
        have hne : input ≠ [] := List.length_pos_iff.mp hpos
        have hn : n < 2 ^ 64 := by
          rw [h.length_full] at hbound
          simp only [BLAKE3_CHUNK_LEN] at hbound
          omega
        have hchunk : chunkStateUpdate self.chunk input =
            absorb (freshChunk key flags (BitVec.ofNat 64 n)) input := by
          rw [h.chunk_eq, chunkStateUpdate_absorb, List.nil_append]
        have hcounter : (chunkStateUpdate self.chunk input).chunkCounter = BitVec.ofNat 64 n := by
          rw [hchunk, chunkCounter_absorb]
          rfl
        obtain ⟨segs', hpeaks, hflatten, hholds⟩ := @hasherMergeCVStack_spec key flags
          { self with chunk := chunkStateUpdate self.chunk input } segs n h.key_eq
          (by rw [hchunk, flags_absorb]; rfl) h.holds h.lazy h.length_flatten hn
        refine ⟨_, full, input, n, segs', rfl, ?_, ⟨fun _ => hpeaks, fun hnil => absurd hnil hne⟩, rfl⟩
        rw [hcounter]
        exact ⟨h.key_eq, hchunk, h.length_full, Nat.le_of_not_lt hlarge,
          hflatten.trans h.flatten_eq, hholds, hpeaks.lazy⟩
      · rw [if_neg hpos]
        have hnil : input = [] := List.eq_nil_of_length_eq_zero (by omega)
        subst hnil
        exact ⟨self, full, [], n, segs, rfl, h, hsettled rfl, rfl⟩

/-- A full chunk becomes a leaf. -/
theorem finishChunk_spec (h : Absorbed key flags full tail n segs self)
    (hfull : tail.length = BLAKE3_CHUNK_LEN) (hbound : full.length + tail.length < 2 ^ 64) :
    ∃ self' segs', finishChunk self = some self' ∧
      Absorbed key flags (full ++ tail) [] (n + 1) segs' self' := by
  have hn : n < 2 ^ BLAKE3_MAX_DEPTH := by
    rw [h.length_full] at hbound
    exact lt_maxDepth hbound
  have hne : tail ≠ [] := by
    rintro rfl
    exact absurd hfull (by decide)
  have hleaf : leaves key flags tail (BitVec.ofNat 64 n) =
      [outputChainingValue (chunkStateOutput self.chunk)] := by
    rw [leaves_of_le key flags hne (Nat.le_of_eq hfull), h.chunk_eq, chunkOutput]
  obtain ⟨self', below, hsome, hkey, hchunk, hpending, hflatten, hholds⟩ :=
    hasherPushCV_spec (k := 0) h.key_eq h.flags_eq h.holds h.lazy h.length_flatten hn
      (congrArg List.length hleaf) (Nat.one_dvd n)
  rw [hleaf, treeFold_singleton] at hsome
  refine ⟨{ self' with chunk := freshChunk key flags (BitVec.ofNat 64 (n + 1)) },
    below ++ [leaves key flags tail (BitVec.ofNat 64 n)], ?_, ?_⟩
  · simp only [finishChunk, h.chunkCounter_eq, hsome, hchunk, hkey, Option.bind_eq_bind,
      Option.bind_some]
    rw [h.chunk_eq, chunkStateReset_absorb, BitVec.ofNat_add]
    rfl
  · refine ⟨hkey, (absorb_freshChunk_nil key flags _).symm, ?_, Nat.zero_le _, ?_, hholds,
      Or.inr ⟨below, _, rfl, hpending⟩⟩
    · rw [List.length_append, h.length_full, hfull, Nat.mul_succ]
    · rw [List.flatten_concat, hflatten, h.leaves_append]

/-- **An update** takes its input in, whatever the processor and wherever the bytes are cut. -/
theorem hasherUpdate_spec (h : Absorbed key flags full tail n segs self)
    (hsettled : Settled tail segs) {input : Bytes}
    (hbound : full.length + tail.length + input.length < 2 ^ 64) :
    ∃ self' full' tail' n' segs', hasherUpdate P self input = some self' ∧
      Absorbed key flags full' tail' n' segs' self' ∧ Settled tail' segs' ∧
      full' ++ tail' = full ++ tail ++ input := by
  unfold hasherUpdate
  by_cases hzero : input.length = 0
  · obtain rfl := List.eq_nil_of_length_eq_zero hzero
    exact ⟨self, full, tail, n, segs, if_pos rfl, h, hsettled, (List.append_nil _).symm⟩
  rw [if_neg hzero, h.chunkStateLen_eq]
  by_cases hpos : tail.length > 0
  · -- the open chunk is filled first
    have htail : tail ≠ [] := List.length_pos_iff.mp hpos
    have htake : (if BLAKE3_CHUNK_LEN - tail.length > input.length then input.length
        else BLAKE3_CHUNK_LEN - tail.length) =
          min (BLAKE3_CHUNK_LEN - tail.length) input.length := by
      split <;> omega
    have hle := h.tail_le
    simp only [if_pos hpos, htake]
    generalize hk : min (BLAKE3_CHUNK_LEN - tail.length) input.length = k
    have htailLen : (tail ++ input.take k).length = tail.length + k := by
      rw [List.length_append, List.length_take]
      omega
    have hfilled : Absorbed key flags full (tail ++ input.take k) n segs
        { self with chunk := chunkStateUpdate self.chunk (input.take k) } :=
      ⟨h.key_eq, by rw [h.chunk_eq, chunkStateUpdate_absorb], h.length_full, by omega,
        h.flatten_eq, h.holds, h.lazy⟩
    by_cases hmore : (input.drop k).length > 0
    · -- it is full, and not the last
      rw [if_pos hmore]
      rw [List.length_drop] at hmore
      obtain ⟨self₁, segs₁, hsome, habsorbed⟩ := finishChunk_spec hfilled (by omega) (by omega)
      have hlengths : (full ++ (tail ++ input.take k)).length + (input.drop k).length < 2 ^ 64 := by
        rw [List.length_append, htailLen, List.length_drop]
        omega
      obtain ⟨self', full', tail', n', segs', hupdate, habsorbed', hsettled', hbytes⟩ :=
        updateSubtrees_spec P habsorbed (fun hnil => by
          rw [List.drop_eq_nil_iff] at hnil
          omega) hlengths
      refine ⟨self', full', tail', n', segs', ?_, habsorbed', hsettled', ?_⟩
      · rw [hsome, Option.bind_some, hupdate]
      · rw [hbytes, List.append_assoc, List.append_assoc, List.append_assoc,
          List.take_append_drop]
    · rw [if_neg hmore]
      rw [List.length_drop] at hmore
      have hall : input.take k = input := List.take_of_length_le (by omega)
      rw [hall] at hfilled ⊢
      have hnew : tail ++ input ≠ [] := by simp [htail]
      exact ⟨_, full, tail ++ input, n, segs, rfl, hfilled,
        ⟨fun _ => hsettled.peaks htail, fun hnil => absurd hnil hnew⟩,
        (List.append_assoc _ _ _).symm⟩
  · obtain rfl := List.eq_nil_of_length_eq_zero (Nat.eq_zero_of_not_pos hpos)
    rw [if_neg hpos, List.append_nil]
    exact updateSubtrees_spec P h (fun hnil => absurd (congrArg List.length hnil) hzero)
      (by simpa using hbound)

end Step

/-! ## The open node at the end -/

/-- The output is the top node over these leaves. -/
structure IsTop (key : CVWords) (flags : UInt8) (output : Output) (cvs : List CV) : Prop where
  fold : outputChainingValue output = treeFold (parentCV key flags) cvs
  halves : 2 ≤ cvs.length → output = parentOutput
    ((treeHalves (parentCV key flags) cvs).1 ++ (treeHalves (parentCV key flags) cvs).2) key flags

/-- A complete subtree becomes the left sibling of what is above it. -/
theorem IsTop.parent {output : Output} {s cvs : List CV} (h : IsTop key flags output cvs) {k : ℕ}
    (hs : s.length = 2 ^ k) (hpos : 0 < cvs.length) (hle : cvs.length ≤ 2 ^ k) :
    IsTop key flags (parentOutput (treeFold (parentCV key flags) s ++ outputChainingValue output)
      key flags) (s ++ cvs) where
  fold := by
    rw [treeFold_append _ hs hpos hle, ← h.fold]
    rfl
  halves _ := by rw [treeHalves_append _ hs hpos hle, h.fold]

/-- **Rolling up** the stack. -/
theorem IsTop.rollUp {output : Output} {cvs : List CV} (h : IsTop key flags output cvs)
    (hpos : 0 < cvs.length) {segs : List (List CV)} (hpeaks : Peaks segs)
    (hle : ∀ s ∈ segs, cvs.length ≤ s.length) :
    IsTop key flags
      (rollUp key flags output (segs.map (treeFold (parentCV key flags))).reverse)
      (segs.flatten ++ cvs) := by
  rw [Blake3.rollUp, List.foldl_reverse]
  induction segs with
  | nil => exact h
  | cons s segs ih =>
    obtain ⟨k, hk⟩ := hpeaks.complete s List.mem_cons_self
    have hroom := hpeaks.length_flatten_append_le hle
    have hrest := ih hpeaks.of_cons fun t ht => hle t (List.mem_cons_of_mem _ ht)
    rw [List.flatten_cons, List.append_assoc]
    exact hrest.parent hk (by rw [List.length_append]; omega) (hk ▸ hroom)

theorem isTop_chunk {bytes : Bytes} (hne : bytes ≠ []) (hle : bytes.length ≤ BLAKE3_CHUNK_LEN)
    (counter : U64) :
    IsTop key flags (chunkOutput key flags counter bytes) (leaves key flags bytes counter) := by
  rw [leaves_of_le key flags hne hle]
  exact ⟨(treeFold_singleton _ _).symm, fun htwo => absurd htwo (by simp)⟩

theorem isTop_subtreeOutput {bytes : Bytes} (hne : bytes ≠ []) (counter : U64) :
    IsTop key flags (subtreeOutput key flags bytes counter) (leaves key flags bytes counter) := by
  refine ⟨outputChainingValue_subtreeOutput key flags hne counter, fun htwo => ?_⟩
  have hlarge : BLAKE3_CHUNK_LEN < bytes.length := by
    rw [length_leaves] at htwo
    simp only [BLAKE3_CHUNK_LEN] at *
    omega
  obtain ⟨j, -, -, hleft, hright, -⟩ := exists_leaves_split key flags hlarge counter
  have hleftNe := ne_nil_of_leaves key flags (hleft ▸ Nat.two_pow_pos j)
  have hrightNe := ne_nil_of_leaves key flags hright
  rw [subtreeOutput, dif_pos hlarge, treeHalves_leaves key flags hlarge]
  simp only [outputChainingValue_subtreeOutput key flags hleftNe,
    outputChainingValue_subtreeOutput key flags hrightNe]

/-- The top node over at least two leaves is determined. -/
theorem IsTop.unique {output output' : Output} {cvs : List CV} (h : IsTop key flags output cvs)
    (h' : IsTop key flags output' cvs) (htwo : 2 ≤ cvs.length) : output = output' :=
  (h.halves htwo).trans (h'.halves htwo).symm

/-- **The open node at the end** is the top of the tree over all bytes. -/
theorem rootOutput_spec {full tail : Bytes} {n : ℕ} {segs : List (List CV)} {self : Hasher}
    (h : Absorbed key flags full tail n segs self) (hsettled : Settled tail segs) :
    rootOutput self = some (subtreeOutput key flags (full ++ tail) 0) := by
  have hbytes := h.leaves_append tail
  rw [rootOutput, h.chunkStateLen_eq, h.key_eq, h.flags_eq, h.holds]
  by_cases hsegs : segs = []
  · -- a single chunk, which is the root
    subst hsegs
    have hzero : n = 0 := h.length_flatten.symm
    have hfull : full = [] := List.eq_nil_of_length_eq_zero (by rw [h.length_full, hzero]; rfl)
    have hle := h.tail_le
    rw [hfull, List.nil_append, subtreeOutput, dif_neg (Nat.not_lt.mpr hle), h.chunk_eq, hzero]
    rfl
  have hstack : (segs.map (treeFold (parentCV key flags))).reverse.length ≠ 0 := by
    simpa using hsegs
  have hbelow : ∀ s ∈ segs, 1 ≤ s.length := by
    intro s hs
    obtain ⟨k, hk⟩ := h.lazy.complete s hs
    exact hk ▸ Nat.one_le_two_pow
  rw [if_neg hstack]
  by_cases htail : tail = []
  · -- the two topmost subtrees are the children of the node that is open
    subst htail
    have htwo := hsettled.two_le rfl hsegs
    obtain ⟨segs', t, rfl, hpending⟩ := h.lazy.resolve_left hsegs
    have hne : segs' ≠ [] := by
      rintro rfl
      simp at htwo
    obtain ⟨below, s, rfl⟩ := (List.eq_nil_or_concat' segs').resolve_left hne
    obtain ⟨k, hk⟩ := hpending.peaks.complete s (by simp)
    have hle : t.length ≤ s.length := hpending.le s (by simp)
    have hpos : 0 < t.length := hbelow t (by simp)
    have hpair : IsTop key flags (parentOutput (treeFold (parentCV key flags) s ++
        treeFold (parentCV key flags) t) key flags) (s ++ t) :=
      ⟨(treeFold_append (parentCV key flags) hk hpos (hk ▸ hle)).symm,
        fun _ => by rw [treeHalves_append _ hk hpos (hk ▸ hle)]⟩
    have htop := hpair.rollUp (by simp; omega) hpending.peaks.of_concat (by
      intro u hu
      have hdouble := hpending.peaks.two_mul_le_of_concat hu
      rw [List.length_append]
      omega)
    have hflatten : leaves key flags full 0 = below.flatten ++ (s ++ t) := by
      rw [← h.flatten_eq, List.flatten_concat, List.flatten_concat, List.append_assoc]
    have hfull : full ≠ [] := by
      apply ne_nil_of_leaves key flags
      rw [hflatten]
      simp
      omega
    rw [← hflatten] at htop
    rw [List.append_nil, reverse_map_concat, reverse_map_concat, if_neg (by simp)]
    refine congrArg some (htop.unique (isTop_subtreeOutput hfull 0) ?_)
    rw [hflatten, List.length_append, List.length_append]
    omega
  · -- the open chunk is the last leaf
    have hpos := List.length_pos_iff.mpr htail
    have hchunk : chunkStateOutput self.chunk =
        chunkOutput key flags (BitVec.ofNat 64 n) tail := by rw [h.chunk_eq, chunkOutput]
    have hleaf := leaves_of_le key flags htail h.tail_le (BitVec.ofNat 64 n)
    have htop := (@isTop_chunk key flags tail htail h.tail_le (BitVec.ofNat 64 n)).rollUp
      (by rw [hleaf]; exact Nat.one_pos) (hsettled.peaks htail) (by rw [hleaf]; exact hbelow)
    have hflatten : 0 < segs.flatten.length := by
      obtain ⟨s, rest, rfl⟩ := List.exists_cons_of_ne_nil hsegs
      have hs := hbelow s List.mem_cons_self
      rw [List.flatten_cons, List.length_append]
      omega
    rw [← hbytes] at htop
    have hall : full ++ tail ≠ [] := by simp [htail]
    rw [if_pos hpos, hchunk]
    refine congrArg some (htop.unique (isTop_subtreeOutput hall 0) ?_)
    rw [hbytes, hleaf, List.length_append, List.length_singleton]
    omega

end Invariant

/-! ## Extended output -/

/-- Byte `i` of the output of a node, however much of it is asked for. -/
def xofByte (self : Output) (i : ℕ) : UInt8 :=
  (compressXof self.inputCV self.block self.blockLen (BitVec.ofNat 64 (i / 64))
    (self.flags ||| ROOT)).toList.getD (i % 64) 0

/-- The bytes from `start` on. -/
def xofBytes (self : Output) (start len : ℕ) : Bytes := (List.range' start len).map (xofByte self)

theorem xofBytes_append (self : Output) (start m n : ℕ) :
    xofBytes self start m ++ xofBytes self (start + m) n = xofBytes self start (m + n) := by
  rw [xofBytes, xofBytes, xofBytes, ← List.map_append, List.range'_append_1]

theorem drop_xofBytes (self : Output) (start len k : ℕ) :
    (xofBytes self start len).drop k = xofBytes self (start + k) (len - k) := by
  simp [xofBytes, ← List.map_drop, List.drop_range']

theorem take_xofBytes (self : Output) {start len k : ℕ} (h : k ≤ len) :
    (xofBytes self start len).take k = xofBytes self start k := by
  rw [xofBytes, ← List.map_take, List.take_range'_of_length_ge h, xofBytes]

/-- One block of output. -/
theorem toList_compressXof (self : Output) (counter : ℕ) :
    (compressXof self.inputCV self.block self.blockLen (BitVec.ofNat 64 counter)
      (self.flags ||| ROOT)).toList = xofBytes self (64 * counter) 64 := by
  apply List.ext_getElem
  · simp [xofBytes]
  · intro i hi hi'
    rw [Vector.length_toList] at hi
    have hdiv : (64 * counter + i) / 64 = counter := by omega
    have hmod : (64 * counter + i) % 64 = i := by omega
    simp [xofBytes, xofByte, hdiv, hmod, hi]

theorem xofMany_eq (self : Output) (counter outblocks : ℕ) :
    xofMany self counter outblocks = xofBytes self (64 * counter) (64 * outblocks) := by
  induction outblocks generalizing counter with
  | zero => rfl
  | succ outblocks ih =>
    have hnext : 64 * (counter + 1) = 64 * counter + 64 := by omega
    have hlen : 64 * (outblocks + 1) = 64 + 64 * outblocks := by omega
    rw [xofMany, ih, toList_compressXof, hnext, xofBytes_append, hlen]

/-- Whole blocks, and the start of one more. -/
theorem append_blocks (self : Output) (start counter len : ℕ) (k : ℕ)
    (h : start + k = 64 * counter) :
    (if len - len / 64 * 64 ≠ 0 then
      xofBytes self start k ++ xofMany self counter (len / 64) ++
        (xofBytes self (64 * (counter + len / 64)) 64).take (len - len / 64 * 64)
    else xofBytes self start k ++ xofMany self counter (len / 64)) =
      xofBytes self start (k + len) := by
  have hwhole : xofBytes self start k ++ xofMany self counter (len / 64) =
      xofBytes self start (k + 64 * (len / 64)) := by rw [xofMany_eq, ← h, xofBytes_append]
  rw [hwhole]
  split
  case isTrue hrest =>
    have hnext : 64 * (counter + len / 64) = start + (k + 64 * (len / 64)) := by omega
    have hlen : k + 64 * (len / 64) + (len - len / 64 * 64) = k + len := by omega
    rw [take_xofBytes self (by omega), hnext, xofBytes_append, hlen]
  case isFalse hrest =>
    have hlen : k + 64 * (len / 64) = k + len := by omega
    rw [hlen]

/-- **Seeking**: the pieces of blocks at both ends and the whole blocks between them line up. -/
theorem outputRootBytes_eq (self : Output) (seek outLen : ℕ) :
    outputRootBytes self seek outLen = xofBytes self seek outLen := by
  unfold outputRootBytes
  by_cases hzero : outLen = 0
  · rw [if_pos hzero, hzero]
    rfl
  simp only [if_neg hzero, toList_compressXof]
  by_cases hoffset : seek % 64 = 0
  · -- the output starts with a block
    simp only [hoffset, ne_eq, not_true, if_false]
    have hblocks := append_blocks self seek (seek / 64) outLen 0 (by omega)
    rw [Nat.zero_add] at hblocks
    exact hblocks
  · -- it starts inside a block, and may end there
    simp only [hoffset, ne_eq, not_false_iff, if_true]
    have hbytes : (if outLen > 64 - seek % 64 then 64 - seek % 64 else outLen) =
        min (64 - seek % 64) outLen := by
      split <;> omega
    have hfirst : ((xofBytes self (64 * (seek / 64)) 64).drop (seek % 64)).take
        (min (64 - seek % 64) outLen) = xofBytes self seek (min (64 - seek % 64) outLen) := by
      rw [drop_xofBytes, Nat.div_add_mod, take_xofBytes self (Nat.min_le_left _ _)]
    rw [hbytes, hfirst]
    by_cases hends : outLen ≤ 64 - seek % 64
    · rw [Nat.min_eq_right hends, Nat.sub_self]
      exact List.append_nil _
    · have hmin := Nat.min_eq_left (Nat.le_of_not_le hends)
      have hblocks := append_blocks self seek (seek / 64 + 1) (outLen - (64 - seek % 64))
        (64 - seek % 64) (by omega)
      rw [Nat.add_sub_of_le (Nat.le_of_not_le hends)] at hblocks
      rw [hmin]
      exact hblocks

/-! ## Runs -/

/-- Updates, each with what the processor and the memory are like then. -/
def hasherUpdates (self : Hasher) (updates : List (Platform × Bytes)) : Option Hasher :=
  updates.foldlM (fun self update => hasherUpdate update.1 self update.2) self

/-- The bytes of the updates, in order. -/
def inputOf (updates : List (Platform × Bytes)) : Bytes := (updates.map Prod.snd).flatten

section Runs

variable {key : CVWords} {flags : UInt8}

/-- **A run of updates** takes all bytes in. -/
theorem hasherUpdates_spec {full tail : Bytes} {n : ℕ} {segs : List (List CV)} {self : Hasher}
    (h : Absorbed key flags full tail n segs self) (hsettled : Settled tail segs)
    {updates : List (Platform × Bytes)}
    (hbound : full.length + tail.length + (inputOf updates).length < 2 ^ 64) :
    ∃ self' full' tail' n' segs', hasherUpdates self updates = some self' ∧
      Absorbed key flags full' tail' n' segs' self' ∧ Settled tail' segs' ∧
      full' ++ tail' = full ++ tail ++ inputOf updates := by
  induction updates generalizing full tail n segs self with
  | nil => exact ⟨self, full, tail, n, segs, rfl, h, hsettled, (List.append_nil _).symm⟩
  | cons update updates ih =>
    have hinput : inputOf (update :: updates) = update.2 ++ inputOf updates := rfl
    rw [hinput, List.length_append] at hbound
    obtain ⟨self₁, full₁, tail₁, n₁, segs₁, hsome, habsorbed, hsettled₁, hbytes⟩ :=
      hasherUpdate_spec update.1 h hsettled (show _ + update.2.length < _ by omega)
    have hlength := congrArg List.length hbytes
    simp only [List.length_append] at hlength
    obtain ⟨self', full', tail', n', segs', hrun, hresult, hsettled', hall⟩ :=
      ih habsorbed hsettled₁ (by omega)
    refine ⟨self', full', tail', n', segs', ?_, hresult, hsettled', ?_⟩
    · rw [hasherUpdates, List.foldlM_cons, hsome]
      exact hrun
    · rw [hall, hbytes, hinput, List.append_assoc]

/-- A hasher gives the tree over the bytes it has taken in. -/
theorem hasherFinalizeSeek_absorbed {full tail : Bytes} {n : ℕ} {segs : List (List CV)}
    {self : Hasher} (h : Absorbed key flags full tail n segs self) (hsettled : Settled tail segs)
    (seek outLen : ℕ) :
    hasherFinalizeSeek self seek outLen =
      some (xofBytes (subtreeOutput key flags (full ++ tail) 0) seek outLen) := by
  rw [hasherFinalizeSeek]
  split
  case isTrue hzero =>
    rw [hzero]
    rfl
  case isFalse _ =>
    rw [rootOutput_spec h hsettled, Option.map_some, outputRootBytes_eq]

/-- A run from the start ends in a hasher that gives the tree over all bytes. -/
theorem finalize_hasherUpdates (key : CVWords) (flags : UInt8) {updates : List (Platform × Bytes)}
    (hbound : (inputOf updates).length < 2 ^ 64) (seek outLen : ℕ) :
    ∃ self, hasherUpdates (hasherInitBase key flags) updates = some self ∧
      hasherFinalizeSeek self seek outLen =
        some (xofBytes (subtreeOutput key flags (inputOf updates) 0) seek outLen) := by
  obtain ⟨self, full, tail, n, segs, hrun, habsorbed, hsettled, hbytes⟩ :=
    hasherUpdates_spec (Absorbed.init key flags) Settled.init
      (show [].length + [].length + (inputOf updates).length < 2 ^ 64 by simpa using hbound)
  refine ⟨self, hrun, ?_⟩
  rw [hasherFinalizeSeek_absorbed habsorbed hsettled, hbytes]
  simp

/-- **The hasher computes the tree**, however its input is cut into updates and whichever code path
each update takes: no push goes over the end of the stack, and any part of the output may be asked
for at any time. -/
theorem hasherUpdates_computes_tree (key : CVWords) (flags : UInt8)
    (updates : List (Platform × Bytes)) (hbound : (inputOf updates).length < 2 ^ 64) :
    ∃ self, hasherUpdates (hasherInitBase key flags) updates = some self ∧
      self.cvStack.length ≤ BLAKE3_MAX_DEPTH + 1 ∧
      ∀ seek outLen, hasherFinalizeSeek self seek outLen =
        some (xofBytes (subtreeOutput key flags (inputOf updates) 0) seek outLen) := by
  obtain ⟨self, full, tail, n, segs, hrun, habsorbed, hsettled, hbytes⟩ :=
    hasherUpdates_spec (Absorbed.init key flags) Settled.init
      (show [].length + [].length + (inputOf updates).length < 2 ^ 64 by simpa using hbound)
  have hlength : full.length < 2 ^ 64 := by
    have hall := congrArg List.length hbytes
    simp only [List.length_append, List.length_nil, Nat.zero_add] at hall
    omega
  refine ⟨self, hrun, habsorbed.length_cvStack_le hlength, fun seek outLen => ?_⟩
  rw [hasherFinalizeSeek_absorbed habsorbed hsettled, hbytes]
  simp

/-- Five chunks and a byte in two updates, the first of which ends within a chunk. -/
theorem hasherUpdates_computes_tree_five_chunks :
    let first : Bytes := List.replicate 3000 97
    let second : Bytes := List.replicate 2121 98
    ∃ self, hasherUpdates hasherInit [(⟨4, default⟩, first), (⟨1, default⟩, second)] = some self ∧
      self.cvStack.length ≤ BLAKE3_MAX_DEPTH + 1 ∧
      ∀ seek outLen, hasherFinalizeSeek self seek outLen =
        some (xofBytes (subtreeOutput IV 0 (first ++ second) 0) seek outLen) := by
  intro first second
  have hinput : inputOf [(⟨4, default⟩, first), (⟨1, default⟩, second)] = first ++ second := by
    simp only [inputOf, List.map_cons, List.map_nil, List.flatten_cons, List.flatten_nil,
      List.append_nil]
  have hlength : (first ++ second).length = 5121 := by
    rw [List.length_append, List.length_replicate, List.length_replicate]
  rw [← hinput] at hlength ⊢
  exact hasherUpdates_computes_tree IV 0 [(⟨4, default⟩, first), (⟨1, default⟩, second)]
    (by rw [hlength]; decide)

end Runs

end Dataprint.Blake3
