import Dataprint.Blake3.ChunkState
import Dataprint.Foundations.TreeFold

/-!
# Subtrees

`lib/blake3/blake3.c` hashes more than one chunk at a time: up to as many chunks, and then as many
parents, as the processor compresses side by side (its SIMD degree).  A wide call does not reach the
root of its subtree.  It returns several chaining values from different levels, which its caller
pairs up further.

- `subtreeOutput` — the tree as it is meant: the left subtree is the largest complete one;
- `wide_spec` — what a wide call returns folds to the two halves of that tree, whatever the degree;
- `compressSubtreeToParentNode_eq` — so the top node does not depend on the processor.
-/

namespace Dataprint.Blake3

open Foundations

/-- What differs between processors: `blake3_simd_degree()`, a power of two, by its logarithm, and
what memory holds that is not initialised. -/
structure Platform where
  degreeLog : ℕ
  stale : CV

/-- `blake3_simd_degree`. -/
def Platform.simdDegree (P : Platform) : ℕ := 2 ^ P.degreeLog

theorem Platform.simdDegree_pos (P : Platform) : 0 < P.simdDegree := Nat.two_pow_pos _

theorem Platform.chunk_lt {P : Platform} {n : ℕ} (h : ¬ n ≤ P.simdDegree * BLAKE3_CHUNK_LEN) :
    BLAKE3_CHUNK_LEN < n :=
  Nat.lt_of_le_of_lt (Nat.le_mul_of_pos_left _ P.simdDegree_pos) (Nat.lt_of_not_le h)

/-- The index of the highest 1-bit. -/
def highestOne (x : ℕ) : ℕ := Nat.log2 x

def roundDownToPowerOf2 (x : ℕ) : ℕ := 1 <<< highestOne (x ||| 1)

def leftSubtreeLen (inputLen : ℕ) : ℕ :=
  let fullChunks := (inputLen - 1) / BLAKE3_CHUNK_LEN
  roundDownToPowerOf2 fullChunks * BLAKE3_CHUNK_LEN

theorem roundDownToPowerOf2_eq {x : ℕ} (h : x ≠ 0) : roundDownToPowerOf2 x = 2 ^ x.log2 := by
  have hlow := Nat.log2_self_le h
  have hhigh := Nat.lt_log2_self (n := x)
  have hor : (x ||| 1).log2 = x.log2 := by
    refine (Nat.log2_eq_iff ?_).mpr ⟨?_, ?_⟩
    · have hle : x ≤ x ||| 1 := Nat.left_le_or
      omega
    · exact Nat.le_trans hlow Nat.left_le_or
    · exact Nat.or_lt_two_pow hhigh (Nat.one_lt_two_pow (by omega))
  rw [roundDownToPowerOf2, highestOne, hor, Nat.shiftLeft_eq, Nat.one_mul]

theorem roundDownToPowerOf2_pos {x : ℕ} (h : 0 < x) : 0 < roundDownToPowerOf2 x := by
  rw [roundDownToPowerOf2_eq (Nat.ne_of_gt h)]
  exact Nat.two_pow_pos _

/-- The left subtree has a power of two of full chunks, and the right one is no larger. -/
theorem leftSubtreeLen_spec {n : ℕ} (h : BLAKE3_CHUNK_LEN < n) :
    ∃ j, leftSubtreeLen n = BLAKE3_CHUNK_LEN * 2 ^ j ∧ leftSubtreeLen n < n ∧
      n ≤ 2 * leftSubtreeLen n := by
  simp only [leftSubtreeLen, BLAKE3_CHUNK_LEN] at *
  have hne : (n - 1) / 1024 ≠ 0 := by omega
  have hlow := Nat.log2_self_le hne
  have hhigh := Nat.lt_log2_self (n := (n - 1) / 1024)
  rw [Nat.pow_succ] at hhigh
  rw [roundDownToPowerOf2_eq hne]
  refine ⟨((n - 1) / 1024).log2, Nat.mul_comm _ _, ?_, ?_⟩ <;> omega

/-! ## The code -/

/-- The loop of `compress_chunks_parallel`: the full chunks, and what is left of the input. -/
def fullChunks (input : Bytes) : List Bytes × Bytes :=
  if BLAKE3_CHUNK_LEN ≤ input.length then
    let (chunksArray, rest) := fullChunks (input.drop BLAKE3_CHUNK_LEN)
    (input.take BLAKE3_CHUNK_LEN :: chunksArray, rest)
  else ([], input)
termination_by input.length
decreasing_by
  rw [List.length_drop]
  simp only [BLAKE3_CHUNK_LEN] at *
  omega

/-- The loop of `compress_parents_parallel`: the blocks of the parents, and an odd child. -/
def parentBlocks : List CV → List Bytes × List CV
  | left :: right :: rest =>
    let (parentsArray, odd) := parentBlocks rest
    ((left ++ right).toList :: parentsArray, odd)
  | odd => ([], odd)

/-- `memcpy` into an array of chaining values. -/
def writeCVs (dest : List CV) (off : ℕ) (src : List CV) : List CV :=
  dest.take off ++ src ++ dest.drop (off + src.length)

section Code

variable (key : CVWords) (flags : UInt8)

def compressChunksParallel (input : Bytes) (chunkCounter : U64) : List CV :=
  let (chunksArray, rest) := fullChunks input
  let out := hashMany (BLAKE3_CHUNK_LEN / BLAKE3_BLOCK_LEN) key true flags CHUNK_START CHUNK_END
    chunksArray chunkCounter
  if rest.length > 0 then
    let counter := chunkCounter + BitVec.ofNat 64 chunksArray.length
    let chunkState := chunkStateUpdate (freshChunk key flags counter) rest
    out ++ [outputChainingValue (chunkStateOutput chunkState)]
  else out

def compressParentsParallel (childChainingValues : List CV) : List CV :=
  let (parentsArray, odd) := parentBlocks childChainingValues
  hashMany 1 key false (flags ||| PARENT) 0 0 parentsArray 0 ++ odd

/-- The parent of two chaining values. -/
def parentCV (left right : CV) : CV :=
  outputChainingValue (parentOutput (left ++ right) key flags)

/-! ## The tree as it is meant -/

/-- The top node over some bytes, of which the first chunk has this number. -/
def subtreeOutput (input : Bytes) (counter : U64) : Output :=
  if _h : BLAKE3_CHUNK_LEN < input.length then
    let leftLen := leftSubtreeLen input.length
    parentOutput
      (outputChainingValue (subtreeOutput (input.take leftLen) counter) ++
        outputChainingValue (subtreeOutput (input.drop leftLen)
          (counter + BitVec.ofNat 64 (leftLen / BLAKE3_CHUNK_LEN)))) key flags
  else chunkOutput key flags counter input
termination_by input.length
decreasing_by
  all_goals
    obtain ⟨j, hj, hlt, hle⟩ := leftSubtreeLen_spec _h
    simp only [List.length_take, List.length_drop, BLAKE3_CHUNK_LEN] at *
    omega

/-- The chaining values of the chunks. -/
def leaves (input : Bytes) (counter : U64) : List CV :=
  if _h : input = [] then []
  else
    outputChainingValue (chunkOutput key flags counter (input.take BLAKE3_CHUNK_LEN)) ::
      leaves (input.drop BLAKE3_CHUNK_LEN) (counter + 1)
termination_by input.length
decreasing_by
  have hpos := List.length_pos_iff.mpr _h
  rw [List.length_drop]
  simp only [BLAKE3_CHUNK_LEN]
  omega

theorem leaves_nil (counter : U64) : leaves key flags [] counter = [] := by
  rw [leaves, dif_pos rfl]

theorem leaves_of_ne_nil {input : Bytes} (h : input ≠ []) (counter : U64) :
    leaves key flags input counter =
      outputChainingValue (chunkOutput key flags counter (input.take BLAKE3_CHUNK_LEN)) ::
        leaves key flags (input.drop BLAKE3_CHUNK_LEN) (counter + 1) := by
  rw [leaves, dif_neg h]

theorem ne_nil_of_leaves {input : Bytes} {counter : U64}
    (h : 0 < (leaves key flags input counter).length) : input ≠ [] := by
  rintro rfl
  rw [leaves_nil] at h
  exact absurd h (Nat.lt_irrefl 0)

/-- At most a chunk is one leaf. -/
theorem leaves_of_le {input : Bytes} (h : input ≠ []) (hle : input.length ≤ BLAKE3_CHUNK_LEN)
    (counter : U64) : leaves key flags input counter =
      [outputChainingValue (chunkOutput key flags counter input)] := by
  rw [leaves_of_ne_nil key flags h, List.take_of_length_le hle, List.drop_eq_nil_of_le hle,
    leaves_nil]

/-- Every chunk, full or not, is a leaf. -/
theorem length_leaves (input : Bytes) (counter : U64) :
    (leaves key flags input counter).length =
      (input.length + (BLAKE3_CHUNK_LEN - 1)) / BLAKE3_CHUNK_LEN := by
  fun_induction leaves key flags input counter with
  | case1 => rfl
  | case2 input counter h ih =>
    have hpos := List.length_pos_iff.mpr h
    rw [List.length_cons, ih, List.length_drop]
    simp only [BLAKE3_CHUNK_LEN]
    omega

/-- Whole chunks are leaves of their own. -/
theorem leaves_append {n : ℕ} {xs : Bytes} (h : xs.length = BLAKE3_CHUNK_LEN * n) (ys : Bytes)
    (counter : U64) : leaves key flags (xs ++ ys) counter =
      leaves key flags xs counter ++ leaves key flags ys (counter + BitVec.ofNat 64 n) := by
  induction n generalizing xs counter with
  | zero =>
    obtain rfl := List.eq_nil_of_length_eq_zero h
    rw [leaves_nil, List.nil_append, List.nil_append]
    exact congrArg _ (BitVec.add_zero counter).symm
  | succ n ih =>
    have hle : BLAKE3_CHUNK_LEN ≤ xs.length := by
      rw [h]
      exact Nat.le_mul_of_pos_right _ (Nat.succ_pos n)
    have hxs : xs ≠ [] := by
      rintro rfl
      simp [BLAKE3_CHUNK_LEN] at hle
    have hdrop : (xs.drop BLAKE3_CHUNK_LEN).length = BLAKE3_CHUNK_LEN * n := by
      rw [List.length_drop, h, Nat.mul_succ, Nat.add_sub_cancel]
    have hcounter : counter + 1 + BitVec.ofNat 64 n = counter + BitVec.ofNat 64 (n + 1) := by
      rw [BitVec.add_assoc, Nat.add_comm n 1, BitVec.ofNat_add]
      rfl
    rw [leaves_of_ne_nil key flags (by simp [hxs]), leaves_of_ne_nil key flags hxs,
      List.take_append_of_le_length hle, List.drop_append_of_le_length hle, ih hdrop, hcounter,
      List.cons_append]

/-- The leaves to both sides of the left subtree. -/
theorem exists_leaves_split {input : Bytes} (h : BLAKE3_CHUNK_LEN < input.length)
    (counter : U64) :
    let leftLen := leftSubtreeLen input.length
    let left := leaves key flags (input.take leftLen) counter
    let right := leaves key flags (input.drop leftLen)
      (counter + BitVec.ofNat 64 (leftLen / BLAKE3_CHUNK_LEN))
    ∃ j, leaves key flags input counter = left ++ right ∧ leftLen = BLAKE3_CHUNK_LEN * 2 ^ j ∧
      left.length = 2 ^ j ∧ 0 < right.length ∧ right.length ≤ 2 ^ j := by
  obtain ⟨j, hj, hlt, hle⟩ := leftSubtreeLen_spec h
  have htake : (input.take (leftSubtreeLen input.length)).length = BLAKE3_CHUNK_LEN * 2 ^ j := by
    rw [List.length_take, ← hj]
    omega
  have hdiv : leftSubtreeLen input.length / BLAKE3_CHUNK_LEN = 2 ^ j := by
    rw [hj]
    exact Nat.mul_div_cancel_left _ (by decide)
  refine ⟨j, ?_, hj, ?_, ?_, ?_⟩
  · rw [hdiv, ← leaves_append key flags htake, List.take_append_drop]
  · rw [length_leaves, htake]
    simp only [BLAKE3_CHUNK_LEN]
    omega
  · rw [length_leaves, List.length_drop]
    simp only [BLAKE3_CHUNK_LEN]
    omega
  · rw [length_leaves, List.length_drop]
    simp only [BLAKE3_CHUNK_LEN] at *
    omega

/-- **The tree folds its leaves.** -/
theorem outputChainingValue_subtreeOutput {input : Bytes} (h : input ≠ []) (counter : U64) :
    outputChainingValue (subtreeOutput key flags input counter) =
      treeFold (parentCV key flags) (leaves key flags input counter) := by
  fun_induction subtreeOutput key flags input counter with
  | case1 input counter hlt leftLen ihLeft ihRight =>
    obtain ⟨j, hsplit, hlen, hleft, hpos, hle⟩ := exists_leaves_split key flags hlt counter
    have hleftNe := ne_nil_of_leaves key flags (hleft ▸ Nat.two_pow_pos j)
    have hrightNe := ne_nil_of_leaves key flags hpos
    rw [hsplit, treeFold_append _ hleft hpos hle, ← ihLeft hleftNe, ← ihRight hrightNe, parentCV]
  | case2 input counter hle =>
    rw [leaves_of_le key flags h (Nat.le_of_not_lt hle), treeFold_singleton]

/-- The halves of a tree of more than one chunk are the nodes below its root. -/
theorem treeHalves_leaves {input : Bytes} (h : BLAKE3_CHUNK_LEN < input.length) (counter : U64) :
    let leftLen := leftSubtreeLen input.length
    treeHalves (parentCV key flags) (leaves key flags input counter) =
      (treeFold (parentCV key flags) (leaves key flags (input.take leftLen) counter),
        treeFold (parentCV key flags) (leaves key flags (input.drop leftLen)
          (counter + BitVec.ofNat 64 (leftLen / BLAKE3_CHUNK_LEN)))) := by
  obtain ⟨j, hsplit, -, hleft, hpos, hle⟩ := exists_leaves_split key flags h counter
  simp only at hsplit hleft hpos hle ⊢
  rw [hsplit, treeHalves_append _ hleft hpos hle]

/-! ## Chunks and parents side by side -/

/-- **Hashing chunks side by side** gives the leaves. -/
theorem compressChunksParallel_eq (input : Bytes) (chunkCounter : U64) :
    compressChunksParallel key flags input chunkCounter = leaves key flags input chunkCounter := by
  induction hn : input.length using Nat.strongRecOn generalizing input chunkCounter with
  | ind n ih =>
    subst hn
    by_cases hle : BLAKE3_CHUNK_LEN ≤ input.length
    · have hne : input ≠ [] := by
        rintro rfl
        simp [BLAKE3_CHUNK_LEN] at hle
      have hlt : (input.drop BLAKE3_CHUNK_LEN).length < input.length := by
        rw [List.length_drop]
        simp only [BLAKE3_CHUNK_LEN] at *
        omega
      have hfull : (input.take BLAKE3_CHUNK_LEN).length = BLAKE3_CHUNK_LEN := by
        rw [List.length_take, Nat.min_eq_left hle]
      have hcounter : ∀ m : ℕ, chunkCounter + BitVec.ofNat 64 (m + 1) =
          chunkCounter + 1 + BitVec.ofNat 64 m := by
        intro m
        rw [BitVec.add_assoc, Nat.add_comm m 1, BitVec.ofNat_add]
        rfl
      -- the first chunk, and a call for what is behind it
      rw [leaves_of_ne_nil key flags hne, ← ih _ hlt _ _ rfl,
        ← hashOne_eq_chunkCV key flags chunkCounter hfull]
      unfold compressChunksParallel
      rw [fullChunks, if_pos hle]
      simp only [hashMany, if_true, List.length_cons, hcounter]
      split <;> rfl
    · unfold compressChunksParallel
      rw [fullChunks, if_neg hle]
      by_cases hne : input = []
      · subst hne
        rw [leaves_nil]
        rfl
      · have hcounter : chunkCounter + BitVec.ofNat 64 0 = chunkCounter := BitVec.add_zero _
        simp only [hashMany, List.nil_append, List.length_nil, gt_iff_lt,
          if_pos (List.length_pos_iff.mpr hne), hcounter, chunkStateUpdate_freshChunk]
        rw [leaves_of_le key flags hne (Nat.le_of_not_le hle), chunkOutput]

theorem blockOf_toList (block : Block) : blockOf block.toList = block := by
  ext i hi
  simp [blockOf]

/-- A parent is a single block. -/
theorem hashOne_parent (left right : CV) :
    hashOne (left ++ right).toList 1 key 0 (flags ||| PARENT) 0 0 = parentCV key flags left right := by
  simp only [hashOne, hashBlocks, if_pos, UInt8.or_zero]
  exact congrArg (fun block => outputChainingValue (parentOutput block key flags))
    (blockOf_toList (left ++ right))

/-- **Hashing parents side by side** pairs up the children. -/
theorem compressParentsParallel_eq (childChainingValues : List CV) :
    compressParentsParallel key flags childChainingValues =
      pairUp (parentCV key flags) childChainingValues := by
  fun_induction pairUp (parentCV key flags) childChainingValues with
  | case1 left right rest ih =>
    rw [← ih, compressParentsParallel, parentBlocks, compressParentsParallel]
    simp only [hashMany, hashOne_parent, List.cons_append]
    rfl
  | case2 odd h =>
    unfold compressParentsParallel parentBlocks
    rcases odd with _ | ⟨x, _ | ⟨y, rest⟩⟩
    · rfl
    · rfl
    · exact absurd rfl (h x y rest)

/-! ## Wide calls -/

/-- `blake3_compress_subtree_wide`. -/
def compressSubtreeWide (P : Platform) (input : Bytes) (chunkCounter : U64) : List CV :=
  if _h : input.length ≤ P.simdDegree * BLAKE3_CHUNK_LEN then
    compressChunksParallel key flags input chunkCounter
  else
    let leftInputLen := leftSubtreeLen input.length
    let rightChunkCounter := chunkCounter + BitVec.ofNat 64 (leftInputLen / BLAKE3_CHUNK_LEN)
    let cvArray := List.replicate (2 * max P.simdDegree 2) P.stale
    -- a degree of 1 is only kept for single chunks
    let degree :=
      if leftInputLen > BLAKE3_CHUNK_LEN ∧ P.simdDegree = 1 then 2 else P.simdDegree
    let left := compressSubtreeWide P (input.take leftInputLen) chunkCounter
    let cvArray := writeCVs cvArray 0 left
    let right := compressSubtreeWide P (input.drop leftInputLen) rightChunkCounter
    let cvArray := writeCVs cvArray degree right
    if left.length = 1 then cvArray.take 2
    else compressParentsParallel key flags (cvArray.take (left.length + right.length))
termination_by input.length
decreasing_by
  all_goals
    have hchunk := Platform.chunk_lt _h
    obtain ⟨j, -, hlt, hle⟩ := leftSubtreeLen_spec hchunk
    simp only [List.length_take, List.length_drop]
    omega

/-- What a wide call returns for these leaves.  They are returned themselves if they are few enough.
Otherwise there are at least two chaining values and no more than the degree (or two), exactly
as many if the subtree is complete, and they fold to the same halves. -/
structure Wide (P : Platform) (leaves out : List CV) : Prop where
  few : leaves.length ≤ P.simdDegree → out = leaves
  two_le : P.simdDegree < leaves.length → 2 ≤ out.length
  le : P.simdDegree < leaves.length → out.length ≤ max P.simdDegree 2
  complete : P.simdDegree < leaves.length → (∃ m, leaves.length = 2 ^ m) →
    out.length = max P.simdDegree 2
  halves : P.simdDegree < leaves.length →
    treeHalves (parentCV key flags) out = treeHalves (parentCV key flags) leaves

section Wide

variable {key flags} {P : Platform}

/-- With a degree of 1, two chaining values are returned. -/
theorem max_simdDegree (P : Platform) : max P.simdDegree 2 = 2 ^ max P.degreeLog 1 := by
  unfold Platform.simdDegree
  cases P.degreeLog with
  | zero => rfl
  | succ k =>
    have hk := Nat.two_pow_pos k
    rw [Nat.max_eq_left (by omega : 1 ≤ k + 1), Nat.max_eq_left (by rw [Nat.pow_succ]; omega)]

theorem Wide.length_pos {leaves out : List CV} (h : Wide key flags P leaves out)
    (hpos : 0 < leaves.length) : 0 < out.length := by
  by_cases hfew : leaves.length ≤ P.simdDegree
  · rwa [h.few hfew]
  · have htwo := h.two_le (Nat.lt_of_not_le hfew)
    omega

theorem Wide.length_le {leaves out : List CV} (h : Wide key flags P leaves out) :
    out.length ≤ max P.simdDegree 2 := by
  by_cases hfew : leaves.length ≤ P.simdDegree
  · rw [h.few hfew]
    omega
  · exact h.le (Nat.lt_of_not_le hfew)

/-- A complete subtree of more than one chunk fills the degree. -/
theorem Wide.length_eq {leaves out : List CV} (h : Wide key flags P leaves out) {j : ℕ}
    (hlen : leaves.length = 2 ^ j) (hle : P.degreeLog ≤ j) (hpos : 0 < j) :
    out.length = max P.simdDegree 2 := by
  by_cases hfew : leaves.length ≤ P.simdDegree
  · have hj : j ≤ P.degreeLog := by
      rw [hlen] at hfew
      exact (Nat.pow_le_pow_iff_right (by omega)).mp hfew
    rw [h.few hfew, hlen, max_simdDegree, Nat.max_eq_left (by omega), Nat.le_antisymm hj hle]
  · exact h.complete (Nat.lt_of_not_le hfew) ⟨j, hlen⟩

theorem Wide.treeFold_eq {leaves out : List CV} (h : Wide key flags P leaves out) :
    treeFold (parentCV key flags) out = treeFold (parentCV key flags) leaves := by
  by_cases hfew : leaves.length ≤ P.simdDegree
  · rw [h.few hfew]
  · have hlt := Nat.lt_of_not_le hfew
    have htwo : 2 ≤ leaves.length := Nat.lt_of_le_of_lt P.simdDegree_pos hlt
    rw [treeFold_eq_node _ (h.two_le hlt), h.halves hlt, treeFold_eq_node _ htwo]

/-- Two arrays behind each other. -/
theorem take_writeCVs (dest left right : List CV) :
    (writeCVs (writeCVs dest 0 left) left.length right).take (left.length + right.length) =
      left ++ right := by
  have hleft : (writeCVs dest 0 left).take left.length = left := by simp [writeCVs]
  rw [writeCVs, hleft, ← List.length_append, List.take_left]

/-- One layer of parents over two wide results. -/
theorem Wide.pairUp {leavesLeft leavesRight left right : List CV} {j : ℕ}
    (hleft : Wide key flags P leavesLeft left) (hright : Wide key flags P leavesRight right)
    (hlenLeft : leavesLeft.length = 2 ^ j) (hposRight : 0 < leavesRight.length)
    (hlenRight : leavesRight.length ≤ 2 ^ j) (hle : P.degreeLog ≤ j) (hpos : 0 < j) :
    Wide key flags P (leavesLeft ++ leavesRight)
      (Foundations.pairUp (parentCV key flags) (left ++ right)) := by
  have hfull := hleft.length_eq hlenLeft hle hpos
  have hrightPos := hright.length_pos hposRight
  have hrightLe := hright.length_le
  have htwo : 2 ≤ max P.simdDegree 2 := Nat.le_max_right _ _
  have hdegree : P.simdDegree ≤ 2 ^ j := Nat.pow_le_pow_right (by omega) hle
  refine ⟨?_, ?_, ?_, ?_, ?_⟩
  · intro hfew
    rw [List.length_append] at hfew
    omega
  · intro _
    rw [length_pairUp, List.length_append]
    omega
  · intro _
    rw [length_pairUp, List.length_append]
    omega
  · rintro - ⟨m, hm⟩
    -- both halves are complete
    have hrightFull : leavesRight.length = 2 ^ j := by
      rw [List.length_append, hlenLeft] at hm
      have hjm : j + 1 ≤ m := by
        apply (Nat.pow_lt_pow_iff_right (a := 2) (by omega)).mp
        omega
      have hpow : 2 ^ (j + 1) ≤ 2 ^ m := Nat.pow_le_pow_right (by omega) hjm
      rw [Nat.pow_succ] at hpow
      omega
    have hrightEq := hright.length_eq hrightFull hle hpos
    rw [length_pairUp, List.length_append]
    omega
  · intro _
    rw [max_simdDegree] at hfull hrightLe
    rw [treeHalves_pairUp _ (by rw [List.length_append, hfull, ← max_simdDegree]; omega),
      treeHalves_append _ hfull hrightPos hrightLe, treeHalves_append _ hlenLeft hposRight hlenRight,
      hleft.treeFold_eq, hright.treeFold_eq]

end Wide

/-- **A wide call** returns chaining values that fold to the halves of its subtree, in an array of at
most `MAX_SIMD_DEGREE_OR_2` of them, and it reads nothing that is not initialised. -/
theorem wide_spec (P : Platform) {input : Bytes} (h : input ≠ []) (chunkCounter : U64) :
    Wide key flags P (leaves key flags input chunkCounter)
      (compressSubtreeWide key flags P input chunkCounter) := by
  induction hn : input.length using Nat.strongRecOn generalizing input chunkCounter with
  | ind n ih =>
    subst hn
    rw [compressSubtreeWide]
    by_cases hle : input.length ≤ P.simdDegree * BLAKE3_CHUNK_LEN
    · rw [dif_pos hle, compressChunksParallel_eq]
      have hfew : (leaves key flags input chunkCounter).length ≤ P.simdDegree := by
        rw [length_leaves]
        simp only [BLAKE3_CHUNK_LEN] at *
        omega
      have hmany := Nat.not_lt.mpr hfew
      exact ⟨fun _ => rfl, (absurd · hmany), (absurd · hmany), (absurd · hmany), (absurd · hmany)⟩
    · rw [dif_neg hle]
      have hchunk := Platform.chunk_lt hle
      have hmany : P.simdDegree < (leaves key flags input chunkCounter).length := by
        rw [length_leaves]
        simp only [BLAKE3_CHUNK_LEN] at *
        omega
      obtain ⟨i, -, hltLen, -⟩ := leftSubtreeLen_spec hchunk
      obtain ⟨j, hsplit, hlen, hlenLeft, hposRight, hlenRight⟩ :=
        exists_leaves_split key flags hchunk chunkCounter
      have hpow := Nat.two_pow_pos j
      have hlenPos : 0 < leftSubtreeLen input.length := by
        rw [hlen]
        exact Nat.mul_pos (by decide) hpow
      have hleft := ih _ (by rw [List.length_take]; omega)
        (ne_nil_of_leaves key flags (hlenLeft ▸ hpow)) chunkCounter rfl
      have hright := ih _ (by rw [List.length_drop]; omega)
        (ne_nil_of_leaves key flags hposRight)
        (chunkCounter + BitVec.ofNat 64 (leftSubtreeLen input.length / BLAKE3_CHUNK_LEN)) rfl
      have hdegree : P.degreeLog ≤ j := by
        rw [hsplit, List.length_append, hlenLeft] at hmany
        have hlt : 2 ^ P.degreeLog < 2 ^ (j + 1) := by
          rw [Nat.pow_succ]
          unfold Platform.simdDegree at hmany
          omega
        exact Nat.le_of_lt_succ ((Nat.pow_lt_pow_iff_right (by omega)).mp hlt)
      rw [hsplit] at hmany ⊢
      simp only
      generalize compressSubtreeWide key flags P (input.take _) _ = left at hleft ⊢
      generalize compressSubtreeWide key flags P (input.drop _) _ = right at hright ⊢
      rcases Nat.eq_zero_or_pos j with rfl | hpos
      · -- two chunks, and a degree of 1: they are returned
        have hone : P.simdDegree = 1 := by
          rw [Platform.simdDegree, Nat.le_zero.mp hdegree]
          rfl
        have hlenRight' := Nat.le_antisymm hlenRight hposRight
        have hleftEq := hleft.few (by rw [hlenLeft, hone]; exact Nat.le_refl 1)
        have hrightEq := hright.few (by rw [hlenRight', hone]; exact Nat.le_refl 1)
        have hleftLen : left.length = 1 := hleftEq ▸ hlenLeft
        have hrightLen : right.length = 1 := hrightEq ▸ hlenRight'
        have hnarrow : ¬ (leftSubtreeLen input.length > BLAKE3_CHUNK_LEN ∧ P.simdDegree = 1) := by
          rw [hlen]
          simp
        have harray : ∀ dest, (writeCVs (writeCVs dest 0 left) 1 right).take 2 = left ++ right := by
          intro dest
          have htake := take_writeCVs dest left right
          rw [hleftLen, hrightLen] at htake
          exact htake
        rw [if_neg hnarrow, if_pos hleftLen, hone, harray, ← hleftEq, ← hrightEq]
        refine ⟨fun _ => rfl, fun _ => ?_, fun _ => ?_, fun _ _ => ?_, fun _ => rfl⟩ <;>
          simp [hleftLen, hrightLen, hone]
      · have hfull := hleft.length_eq hlenLeft hdegree hpos
        have hne : left.length ≠ 1 := by
          have htwo : 2 ≤ max P.simdDegree 2 := Nat.le_max_right _ _
          omega
        have hwide : (if leftSubtreeLen input.length > BLAKE3_CHUNK_LEN ∧ P.simdDegree = 1 then 2
            else P.simdDegree) = left.length := by
          have hgt : leftSubtreeLen input.length > BLAKE3_CHUNK_LEN := by
            rw [hlen]
            exact (Nat.lt_mul_iff_one_lt_right (by decide)).mpr (Nat.one_lt_two_pow (by omega))
          rw [hfull]
          have hsimd := P.simdDegree_pos
          split <;> omega
        rw [hwide, if_neg hne, take_writeCVs, compressParentsParallel_eq]
        exact hleft.pairUp hright hlenLeft hposRight hlenRight hdegree hpos

/-- **Every degree of parallelism computes the same subtree**: the chaining values returned fit in
the buffer of the caller, and they fold to the root. -/
theorem compressSubtreeWide_folds (P : Platform) {input : Bytes} (h : input ≠ [])
    (chunkCounter : U64) :
    (compressSubtreeWide key flags P input chunkCounter).length ≤ max P.simdDegree 2 ∧
      treeFold (parentCV key flags) (compressSubtreeWide key flags P input chunkCounter) =
        outputChainingValue (subtreeOutput key flags input chunkCounter) := by
  have hwide := wide_spec key flags P h chunkCounter
  rw [outputChainingValue_subtreeOutput key flags h]
  rcases Nat.lt_or_ge P.simdDegree (leaves key flags input chunkCounter).length with hlt | hle
  · have hmany : 2 ≤ (leaves key flags input chunkCounter).length := by
      have hpos := P.simdDegree_pos
      omega
    refine ⟨hwide.le hlt, ?_⟩
    rw [treeFold_eq_node _ (hwide.two_le hlt), hwide.halves hlt,
      ← treeFold_eq_node (parentCV key flags) hmany]
  · rw [hwide.few hle]
    exact ⟨Nat.le_trans hle (Nat.le_max_left _ _), rfl⟩

/-- Nine chunks and a byte, four chunks at a time. -/
theorem compressSubtreeWide_folds_nine_chunks :
    let input : Bytes := List.replicate 9217 97
    (compressSubtreeWide default 0 ⟨2, default⟩ input 0).length ≤ max 4 2 ∧
      treeFold (parentCV default 0) (compressSubtreeWide default 0 ⟨2, default⟩ input 0) =
        outputChainingValue (subtreeOutput default 0 input 0) := by
  intro input
  have hlength : input.length = 9217 := List.length_replicate
  have hinput : input ≠ [] := List.ne_nil_of_length_pos (hlength ▸ Nat.succ_pos 9216)
  exact compressSubtreeWide_folds default 0 ⟨2, default⟩ hinput 0

/-! ## The top of a subtree -/

/-- The loop of `compress_subtree_to_parent_node`. -/
def condense (cvArray : List CV) : List CV :=
  if _h : 2 < cvArray.length then condense (compressParentsParallel key flags cvArray) else cvArray
termination_by cvArray.length
decreasing_by
  rw [compressParentsParallel_eq, length_pairUp]
  omega

/-- `compress_subtree_to_parent_node`: the children of the top node. -/
def compressSubtreeToParentNode (P : Platform) (input : Bytes) (chunkCounter : U64) : CV × CV :=
  let cvArray := condense key flags (compressSubtreeWide key flags P input chunkCounter)
  (cvArray.getD 0 P.stale, cvArray.getD 1 P.stale)

/-- Layers of parents lead to the two halves. -/
theorem condense_eq {cvArray : List CV} (h : 2 ≤ cvArray.length) :
    condense key flags cvArray = [(treeHalves (parentCV key flags) cvArray).1,
      (treeHalves (parentCV key flags) cvArray).2] := by
  fun_induction condense key flags cvArray with
  | case1 cvArray hmore ih =>
    rw [compressParentsParallel_eq] at ih ⊢
    rw [ih (by rw [length_pairUp]; omega), treeHalves_pairUp _ hmore]
  | case2 cvArray hmore =>
    match cvArray, h, hmore with
    | [x, y], _, _ =>
      have hhalves : treeHalves (parentCV key flags) ([x] ++ [y]) = (treeFold _ [x], treeFold _ [y]) :=
        treeHalves_append _ (k := 0) rfl (Nat.le_refl 1) (Nat.le_refl 1)
      rw [treeFold_singleton, treeFold_singleton, List.singleton_append] at hhalves
      rw [hhalves]
    | _ :: _ :: _ :: _, _, hmore => exact absurd (by simp) hmore

/-- **The top node does not depend on the processor**: its children are the roots of the left and of
the right subtree. -/
theorem compressSubtreeToParentNode_eq (P : Platform) {input : Bytes}
    (h : BLAKE3_CHUNK_LEN < input.length) (chunkCounter : U64) :
    compressSubtreeToParentNode key flags P input chunkCounter =
      treeHalves (parentCV key flags) (leaves key flags input chunkCounter) := by
  have hne : input ≠ [] := by
    rintro rfl
    simp at h
  have hmany : 2 ≤ (leaves key flags input chunkCounter).length := by
    rw [length_leaves]
    simp only [BLAKE3_CHUNK_LEN] at *
    omega
  have hwide := wide_spec key flags P hne chunkCounter
  rw [compressSubtreeToParentNode]
  by_cases hfew : (leaves key flags input chunkCounter).length ≤ P.simdDegree
  · rw [hwide.few hfew, condense_eq key flags hmany]
    rfl
  · have hlt := Nat.lt_of_not_le hfew
    rw [condense_eq key flags (hwide.two_le hlt), hwide.halves hlt]
    rfl

end Code

end Dataprint.Blake3
