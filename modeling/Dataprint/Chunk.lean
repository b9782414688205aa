import Dataprint.Simdjson
import Mathlib.Data.List.Basic

/-!
# Cutting a File into Chunks

`Processor::chunk` maps a file into memory and pushes it to the queue in pieces that end
after a newline (`src/processor.cpp`).

- `chunks` is the loop over the mapping: a piece is the next `chunkSize` bytes, extended to
  the first newline from there on;
- `chunk` is the whole function.  It records the system calls and the pushes it makes in
  order; what the operating system answers is part of the `File`;
- `chunks_flatten`, `ne_nil_of_mem_chunks` and `chunks_cutAtNewlines` say that the pieces are
  a partition of the file at line ends, and `pushes_chunkCall` that exactly they are pushed.
-/

namespace Dataprint

/-- A piece of a file on its way through the queue. -/
structure WorkItem where
  chunk : Bytes
  deriving DecidableEq, Repr

/-- An input file, with what the operating system answers about it. -/
structure File where
  name : String
  content : Bytes
  /-- the descriptor that `open` returns, none for `-1` -/
  fd : Option ℕ
  statOk : Bool
  mapOk : Bool
  /-- why `padded_string::load` fails, if it does -/
  loadError : Option ErrorCode
  deriving DecidableEq

/-! ## The loop over the mapping -/

/-- `'\n'` -/
def newline : UInt8 := 10

/-- The position of the first newline. -/
def memchr (bytes : Bytes) : Option ℕ := bytes.idxOf? newline

/-- `chunk_end - pos`, for the bytes `rest` from `pos` to `file_end`. -/
def chunkEnd (chunkSize : ℕ) (rest : Bytes) : ℕ :=
  if rest.length ≤ chunkSize then
    -- final chunk, take everything
    rest.length
  else
    -- advance to the next newline to avoid a split record
    match memchr (rest.drop chunkSize) with
    | some i => chunkSize + i + 1
    | none => rest.length

theorem chunkEnd_pos (chunkSize : ℕ) {rest : Bytes} (h : rest ≠ []) :
    0 < chunkEnd chunkSize rest := by
  have hlen : 0 < rest.length := List.length_pos_of_ne_nil h
  unfold chunkEnd
  split
  · exact hlen
  · split
    · exact Nat.succ_pos _
    · exact hlen

/-- The pieces that are pushed for the bytes from `pos` to `file_end`. -/
def chunks (chunkSize : ℕ) (rest : Bytes) : List WorkItem :=
  if _hrest : rest = [] then
    []
  else
    ⟨rest.take (chunkEnd chunkSize rest)⟩ :: chunks chunkSize (rest.drop (chunkEnd chunkSize rest))
termination_by rest.length
decreasing_by
  -- the chunk is nonempty, so `pos` advances
  have hlen := List.length_pos_of_ne_nil _hrest
  have := chunkEnd_pos chunkSize _hrest
  rw [List.length_drop]
  omega

@[simp] theorem chunks_nil (chunkSize : ℕ) : chunks chunkSize [] = [] := by
  rw [chunks]
  simp

theorem chunks_of_ne_nil (chunkSize : ℕ) {rest : Bytes} (h : rest ≠ []) :
    chunks chunkSize rest = ⟨rest.take (chunkEnd chunkSize rest)⟩ ::
      chunks chunkSize (rest.drop (chunkEnd chunkSize rest)) := by
  rw [chunks, dif_neg h]

/-- A piece takes everything, or it is `chunkSize` bytes extended by the rest of a line. -/
theorem chunkEnd_spec (chunkSize : ℕ) (rest : Bytes) :
    chunkEnd chunkSize rest = rest.length ∨
      ∃ first line, rest.take (chunkEnd chunkSize rest) = first ++ line ++ [newline] ∧
        first.length = chunkSize ∧ newline ∉ line := by
  unfold chunkEnd
  split
  case isTrue => exact .inl rfl
  case isFalse hlong =>
    split
    case h_1 i hi =>
      obtain ⟨hlt, heq, hfirst⟩ := List.idxOf?_eq_some_iff.mp hi
      have hline : newline ∉ (rest.drop chunkSize).take i := by
        intro hmem
        obtain ⟨j, hj, hline⟩ := List.mem_take_iff_getElem.mp hmem
        exact hfirst j (by omega) hline
      have hlength : (rest.take chunkSize).length = chunkSize := by
        rw [List.length_take]
        omega
      -- the byte right before the cut is the newline that was found
      have hcut : rest.take (chunkSize + i + 1) =
          rest.take chunkSize ++ (rest.drop chunkSize).take i ++ [newline] := by
        rw [Nat.add_assoc, List.take_add, List.append_assoc, List.take_succ_eq_append_getElem hlt,
          heq]
      exact .inr ⟨_, _, hcut, hlength, hline⟩
    case h_2 => exact .inl rfl

/-- **Nothing is lost**: the pieces in order are the file. -/
theorem chunks_flatten (chunkSize : ℕ) (rest : Bytes) :
    ((chunks chunkSize rest).map WorkItem.chunk).flatten = rest := by
  induction rest using chunks.induct chunkSize with
  | case1 => simp
  | case2 rest h ih =>
    rw [chunks_of_ne_nil chunkSize h, List.map_cons, List.flatten_cons, ih]
    exact List.take_append_drop _ _

theorem ne_nil_of_mem_chunks {chunkSize : ℕ} {rest : Bytes} :
    ∀ item ∈ chunks chunkSize rest, item.chunk ≠ [] := by
  induction rest using chunks.induct chunkSize with
  | case1 => simp
  | case2 rest h ih =>
    rw [chunks_of_ne_nil chunkSize h]
    intro item hitem
    rcases List.mem_cons.mp hitem with rfl | hitem
    · have := chunkEnd_pos chunkSize h
      simp only [ne_eq, List.take_eq_nil_iff, h, or_false]
      omega
    · exact ih item hitem

/-- Every piece but the last ends with a newline. -/
inductive CutAtNewlines : List Bytes → Prop where
  | nil : CutAtNewlines []
  | last (piece : Bytes) : CutAtNewlines [piece]
  | cons (line : Bytes) {pieces : List Bytes} :
      CutAtNewlines pieces → CutAtNewlines ((line ++ [newline]) :: pieces)

/-- **No line is cut**: every piece but the last ends with a newline. -/
theorem chunks_cutAtNewlines (chunkSize : ℕ) (rest : Bytes) :
    CutAtNewlines ((chunks chunkSize rest).map WorkItem.chunk) := by
  induction rest using chunks.induct chunkSize with
  | case1 => simpa using CutAtNewlines.nil
  | case2 rest h ih =>
    rw [chunks_of_ne_nil chunkSize h, List.map_cons]
    rcases chunkEnd_spec chunkSize rest with hall | ⟨first, line, hline, -, -⟩
    · -- everything was taken, so the loop is over
      have hdrop : rest.drop (chunkEnd chunkSize rest) = [] := by rw [hall, List.drop_length]
      rw [hdrop, chunks_nil]
      exact .last _
    · rw [hline]
      exact .cons (first ++ line) ih

/-- **No piece is longer than it has to be**: every piece but the last is `chunkSize` bytes,
extended to the first newline from there on. -/
theorem chunks_extended {chunkSize : ℕ} {rest : Bytes} {pre post : List WorkItem}
    {item : WorkItem} (h : chunks chunkSize rest = pre ++ item :: post) (hpost : post ≠ []) :
    ∃ first line, item.chunk = first ++ line ++ [newline] ∧ first.length = chunkSize ∧
      newline ∉ line := by
  induction rest using chunks.induct chunkSize generalizing pre with
  | case1 => simp at h
  | case2 rest hrest ih =>
    rw [chunks_of_ne_nil chunkSize hrest] at h
    cases pre with
    | cons head pre =>
      rw [List.cons_append, List.cons.injEq] at h
      exact ih h.2
    | nil =>
      rw [List.nil_append, List.cons.injEq] at h
      obtain ⟨rfl, htail⟩ := h
      rcases chunkEnd_spec chunkSize rest with hall | hline
      · -- nothing would be left for another piece
        rw [hall, List.drop_length, chunks_nil] at htail
        exact absurd htail.symm hpost
      · exact hline

/-- Two lines in pieces of one byte and more: both cuts fall behind a newline. -/
example : (chunks 1 [0x5b, 0x5d, 0x0a, 0x7b, 0x7d]).map WorkItem.chunk =
    [[0x5b, 0x5d, 0x0a], [0x7b, 0x7d]] := by decide +kernel

/-! ## The whole function -/

/-- Access hints for a mapping. -/
inductive Advice where
  | sequential
  | willneed
  deriving DecidableEq, Repr

/-- What `chunk` does to the world, one call each. -/
inductive Effect where
  | open (fd : Option ℕ)
  | close (fd : Option ℕ)
  | fstat (fd : ℕ)
  | mmap (fd length : ℕ) (ok : Bool)
  | madvise (length : ℕ) (advice : Advice)
  | munmap (length : ℕ)
  | push (item : WorkItem)
  | warn (text : String)
  deriving DecidableEq

def perform (effect : Effect) : EStateM Exn (List Effect) Unit :=
  modify fun effects => effects ++ [effect]

@[simp] theorem run_perform (effect : Effect) (effects : List Effect) :
    (perform effect).run effects = .ok () (effects ++ [effect]) := rfl

/-- `Processor::chunk`.  The answer of a push is not looked at. -/
def chunk (file : File) (chunkSize : ℕ) : EStateM Exn (List Effect) Unit := do
  perform (.open file.fd)
  match file.fd with
  | none =>
    perform (.close none)
    throw (.runtimeError ("Failed to open file" ++ file.name))
  | some fd =>
    perform (.fstat fd)
    if !file.statOk then
      perform (.close fd)
      throw (.runtimeError "Failed to get file size")
    else if file.content = [] then
      perform (.close fd)
      perform (.warn ("Warning: skipping empty file: " ++ file.name))
    else
      perform (.mmap fd file.content.length file.mapOk)
      if !file.mapOk then
        perform (.close fd)
        throw (.runtimeError "mmap failed")
      else
        perform (.madvise file.content.length .sequential)
        perform (.madvise file.content.length .willneed)
        forM (chunks chunkSize file.content) fun item => perform (.push item)
        perform (.munmap file.content.length)

/-- The effects of a call of `chunk`, and how it ends. -/
def chunkCall (file : File) (chunkSize : ℕ) : List Effect × Except Exn Unit :=
  match (chunk file chunkSize).run [] with
  | .ok _ effects => (effects, .ok ())
  | .error e effects => (effects, .error e)

/-- The item that is pushed, if the effect is a push. -/
def Effect.item? : Effect → Option WorkItem
  | .push item => some item
  | _ => none

/-- The items that are pushed. -/
def pushes (effects : List Effect) : List WorkItem := effects.filterMap Effect.item?

/-- `open` and `fstat` succeed, and `mmap` does unless the file is empty. -/
def File.Readable (file : File) : Prop :=
  file.fd.isSome ∧ file.statOk ∧ (file.content = [] ∨ file.mapOk)

instance (file : File) : Decidable file.Readable :=
  inferInstanceAs (Decidable (_ ∧ _ ∧ (_ ∨ _)))

theorem run_forM_push (items : List WorkItem) (effects : List Effect) :
    (forM items fun item => perform (.push item)).run effects =
      .ok () (effects ++ items.map .push) := by
  induction items generalizing effects with
  | nil => simp
  | cons item items ih => simp [ih]

@[simp] theorem pushes_nil : pushes [] = [] := rfl

theorem pushes_append (effects effects' : List Effect) :
    pushes (effects ++ effects') = pushes effects ++ pushes effects' :=
  List.filterMap_append

theorem pushes_map_push (items : List WorkItem) : pushes (items.map .push) = items := by
  induction items with
  | nil => rfl
  | cons item items ih => exact congrArg (item :: ·) ih

/-- **What is pushed**: the pieces of a readable file, nothing of any other; and `chunk` returns
normally exactly on readable files. -/
theorem chunkCall_spec (file : File) (chunkSize : ℕ) :
    pushes (chunkCall file chunkSize).1 =
        (if file.Readable then chunks chunkSize file.content else []) ∧
      ((chunkCall file chunkSize).2 = .ok () ↔ file.Readable) := by
  obtain ⟨name, content, fd, statOk, mapOk, loadError⟩ := file
  cases fd with
  | none => simp [chunkCall, chunk, File.Readable, pushes, Effect.item?]
  | some fd =>
    cases statOk with
    | false => simp [chunkCall, chunk, File.Readable, pushes, Effect.item?]
    | true =>
      by_cases hempty : content = []
      · simp [chunkCall, chunk, File.Readable, pushes, Effect.item?, hempty]
      · cases mapOk with
        | false => simp [chunkCall, chunk, File.Readable, pushes, Effect.item?, hempty]
        | true =>
          let opening : List Effect := [.open (some fd), .fstat fd, .mmap fd content.length true,
            .madvise content.length .sequential, .madvise content.length .willneed]
          have hrun : (chunk ⟨name, content, some fd, true, true, loadError⟩ chunkSize).run [] =
              .ok () (opening ++ (chunks chunkSize content).map .push ++
                [.munmap content.length]) := by
            simp [chunk, hempty, run_forM_push, opening]
          -- only the loop pushes
          simp only [chunkCall, hrun, pushes_append, pushes_map_push]
          simp [pushes, opening, List.filterMap_cons, Effect.item?, File.Readable]

theorem pushes_chunkCall {file : File} (h : file.Readable) (chunkSize : ℕ) :
    pushes (chunkCall file chunkSize).1 = chunks chunkSize file.content := by
  rw [(chunkCall_spec file chunkSize).1, if_pos h]

/-- **A lossless partition at record boundaries.**  On a readable file with some content and for
every chunk size, the loop ends and pushes nonempty pieces, in order the content of the file;
every piece but the last is `chunkSize` bytes extended up to the first newline from there on. -/
theorem chunk_partition (file : File) (h : file.Readable) (hcontent : file.content ≠ [])
    (chunkSize : ℕ) :
    (chunkCall file chunkSize).2 = .ok () ∧
    (∀ item ∈ pushes (chunkCall file chunkSize).1, item.chunk ≠ []) ∧
    pushes (chunkCall file chunkSize).1 ≠ [] ∧
    ((pushes (chunkCall file chunkSize).1).map WorkItem.chunk).flatten = file.content ∧
    ∀ pre item post, pushes (chunkCall file chunkSize).1 = pre ++ item :: post → post ≠ [] →
      ∃ first line, item.chunk = first ++ line ++ [newline] ∧ first.length = chunkSize ∧
        newline ∉ line := by
  have hok : (chunkCall file chunkSize).2 = .ok () := (chunkCall_spec file chunkSize).2.mpr h
  have hflat := chunks_flatten chunkSize file.content
  rw [pushes_chunkCall h]
  refine ⟨hok, ne_nil_of_mem_chunks, ?_, hflat, ?_⟩
  · intro hnone
    apply hcontent
    simpa [hnone] using hflat.symm
  · intro pre item post hchunks hpost
    exact chunks_extended hchunks hpost

/-- Two records, the second without a newline, in pieces of one byte and more. -/
theorem chunk_partition_two_records :
    ((pushes (chunkCall ⟨"f", [0x5b, 0x5d, 0x0a, 0x7b, 0x7d], some 3, true, true, none⟩ 1).1).map
      WorkItem.chunk).flatten = [0x5b, 0x5d, 0x0a, 0x7b, 0x7d] :=
  (chunk_partition ⟨"f", [0x5b, 0x5d, 0x0a, 0x7b, 0x7d], some 3, true, true, none⟩ (by decide)
    (by decide) 1).2.2.2.1

end Dataprint
