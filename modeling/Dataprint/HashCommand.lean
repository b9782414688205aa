import Dataprint.Blake3.Hasher
import Dataprint.Printing
import Dataprint.Resources
import Mathlib.Data.List.TakeWhile

/-!
# The Hash Command

`Processor::hash` maps one file after another, hashes it with BLAKE3 and prints the hash
(`src/processor.cpp`).

- `printBytesAsHex_text` — a hash is printed with two digits for each byte, in whatever state the
  stream is;
- `run_hashFile` — what is done for one file;
- `hash_prints` — what is printed for all files up to the first that cannot be hashed;
- `hash_reads_back` — it tells the hashes and the names;
- `hash_releases` — unlike `chunk`, every exit gives back what was taken.
-/

namespace Dataprint

open Blake3 Foundations

/-! ## The output stream -/

/-- What is used of a `std::ostream`.  The base and the fill character stay; the width holds for
the next output only. -/
structure Ostream where
  hex : Bool
  fill : Char
  width : ℕ
  text : List Char
  deriving DecidableEq

namespace Ostream

/-- `std::cout` at the start of the program. -/
def cout : Ostream := ⟨false, ' ', 0, []⟩

/-- Formatted output. -/
def put (os : Ostream) (s : List Char) : Ostream :=
  { os with width := 0, text := os.text ++ s.leftpad os.width os.fill }

/-- `os << n`, for an `unsigned int`. -/
def putUnsigned (os : Ostream) (n : ℕ) : Ostream :=
  os.put (Nat.toDigits (if os.hex then 16 else 10) n)

/-- `std::setw`. -/
def setw (os : Ostream) (width : ℕ) : Ostream := { os with width := width }

/-- `std::endl`, which does not look at the width. -/
def endl (os : Ostream) : Ostream := { os with text := os.text ++ ['\n'] }

theorem put_of_width_eq_zero {os : Ostream} (h : os.width = 0) (s : List Char) :
    os.put s = { os with text := os.text ++ s } := by
  obtain ⟨hex, fill, width, text⟩ := os
  obtain rfl : width = 0 := h
  simp [put, List.leftpad]

end Ostream

/-- `printBytesAsHex`. -/
def printBytesAsHex (file : String) (data : Bytes) (os : Ostream) : Ostream :=
  let os := { os with hex := true, fill := '0' }
  let os := data.foldl (fun os byte => (os.setw 2).putUnsigned byte.toNat) os
  ((os.put "  ".toList).put file.toList).endl

/-- Two digits for a byte. -/
def hexPair (byte : UInt8) : List Char := [hexDigit (byte.toNat / 16), hexDigit (byte.toNat % 16)]

/-- Two digits for each byte. -/
def hexText (data : Bytes) : List Char := data.flatMap hexPair

/-- The fill character stands in for the leading zero. -/
theorem leftpad_toDigits (byte : UInt8) :
    (Nat.toDigits 16 byte.toNat).leftpad 2 '0' = hexPair byte := by
  have hlt : byte.toNat < 256 := byte.toNat_lt
  have hdigit : (byte.toNat % 16).digitChar = hexDigit (byte.toNat % 16) :=
    (hexDigit_eq_digitChar _ (Nat.mod_lt _ (by omega))).symm
  rw [Nat.toDigits_eq_if (b := 16) (by omega)]
  split
  case isTrue hsmall =>
    have hhigh : byte.toNat / 16 = 0 := Nat.div_eq_of_lt hsmall
    rw [Nat.mod_eq_of_lt hsmall] at hdigit
    simp only [hexPair, hhigh, Nat.mod_eq_of_lt hsmall, ← hdigit]
    rfl
  case isFalse hlarge =>
    have hhigh : byte.toNat / 16 < 16 := by omega
    rw [Nat.toDigits_of_lt_base hhigh, hdigit, ← hexDigit_eq_digitChar _ hhigh]
    rfl

/-- The loop of `printBytesAsHex`. -/
theorem foldl_putUnsigned {data : Bytes} {os : Ostream} (hhex : os.hex = true)
    (hfill : os.fill = '0') (hdata : data ≠ []) :
    data.foldl (fun os byte => (os.setw 2).putUnsigned byte.toNat) os =
      { os with width := 0, text := os.text ++ hexText data } := by
  have hstep : ∀ (os : Ostream) (byte : UInt8), os.hex = true → os.fill = '0' →
      (os.setw 2).putUnsigned byte.toNat =
        { os with width := 0, text := os.text ++ hexPair byte } := by
    intro os byte hhex hfill
    simp only [Ostream.putUnsigned, Ostream.setw, Ostream.put, hhex, hfill, if_true,
      leftpad_toDigits]
  induction data generalizing os with
  | nil => exact absurd rfl hdata
  | cons byte data ih =>
    rw [List.foldl_cons, hstep os byte hhex hfill]
    by_cases hrest : data = []
    · simp [hrest, hexText]
    · rw [@ih { os with width := 0, text := os.text ++ hexPair byte } hhex hfill hrest]
      simp [hexText]

/-- **Two digits for each byte** are printed, whatever base, fill character and width were set. -/
theorem printBytesAsHex_text (file : String) {data : Bytes} (h : data ≠ []) (os : Ostream) :
    (printBytesAsHex file data os).text =
      os.text ++ (hexText data ++ "  ".toList ++ file.toList ++ ['\n']) := by
  have hloop := @foldl_putUnsigned data { os with hex := true, fill := '0' } rfl rfl h
  simp only [printBytesAsHex, hloop, Ostream.put_of_width_eq_zero, Ostream.endl,
    List.append_assoc]

/-! ## The command -/

/-- The hash of a file: the chaining value of the top node of its tree, computed as that of a
root. -/
def treeHash (content : Bytes) : CV :=
  let top := subtreeOutput IV 0 content 0
  outputChainingValue { top with counter := 0, flags := top.flags ||| ROOT }

/-- How a call of `hash` ends if it does not return. -/
inductive Failure where
  | thrown (e : Exn)
  /-- the C++ standard does not say what happens -/
  | undefined
  deriving DecidableEq, Repr

/-- What a call of `hash` has done so far. -/
structure Done where
  effects : List Effect
  cout : Ostream

namespace Done

def act (effect : Effect) : EStateM Failure Done Unit :=
  modify fun done => { done with effects := done.effects ++ [effect] }

def print (output : Ostream → Ostream) : EStateM Failure Done Unit :=
  modify fun done => { done with cout := output done.cout }

end Done

/-- `blake3_hasher_init`, one `blake3_hasher_update` and `blake3_hasher_finalize`. -/
def digest (P : Platform) (data : Bytes) : Option Bytes := do
  let hasher ← hasherUpdate P hasherInit data
  hasherFinalize hasher BLAKE3_OUT_LEN

/-- The body of the loop of `Processor::hash`. -/
def hashFile (P : Platform) (file : File) : EStateM Failure Done Unit := do
  Done.act (.open file.fd)
  match file.fd with
  | none =>
    Done.act (.close none)
    throw (.thrown (.runtimeError ("Failed to open file" ++ file.name)))
  | some fd =>
    Done.act (.fstat fd)
    -- `st.st_size` is read without a look at what `fstat` returned
    if !file.statOk then throw .undefined
    else
      -- there are no mappings of length zero
      let ok := file.mapOk && !file.content.isEmpty
      Done.act (.mmap fd file.content.length ok)
      if !ok then
        Done.act (.close fd)
        throw (.thrown (.runtimeError "mmap failed"))
      else
        match digest P file.content with
        | none => throw .undefined
        | some output =>
          Done.print (printBytesAsHex file.name output)
          Done.act (.munmap file.content.length)
          Done.act (.close fd)

/-- `Processor::hash`, with the processor for each file. -/
def hash (files : List (Platform × File)) : EStateM Failure Done Unit :=
  forM files fun file => hashFile file.1 file.2

/-! ## One file -/

/-- **The digest is the hash of the tree**, whatever the processor. -/
theorem digest_eq (P : Platform) {data : Bytes} (hsize : data.length < 2 ^ 64) :
    digest P data = some (treeHash data).toList := by
  have hinput : inputOf [(P, data)] = data := by simp [inputOf]
  obtain ⟨hasher, hupdates, hfinalize⟩ :=
    @finalize_hasherUpdates IV 0 [(P, data)] (by rwa [hinput]) 0 BLAKE3_OUT_LEN
  have hupdate : hasherUpdate P hasherInit data = some hasher := by
    simpa [hasherUpdates, hasherInit] using hupdates
  -- the output starts with the chaining value
  have hblock := toList_compressXof (subtreeOutput IV 0 data 0) 0
  have hroot := take_compressXof (subtreeOutput IV 0 data 0).inputCV
    (subtreeOutput IV 0 data 0).block (subtreeOutput IV 0 data 0).blockLen (BitVec.ofNat 64 0)
    ((subtreeOutput IV 0 data 0).flags ||| ROOT)
  rw [hblock, take_xofBytes _ (by decide)] at hroot
  rw [digest, hupdate, Option.bind_eq_bind, Option.bind_some, hasherFinalize, hfinalize, hinput,
    ← Nat.mul_zero 64, hroot]
  rfl

/-- Why a file is not hashed, if it is not. -/
def File.hashFailure (file : File) : Option Failure :=
  if file.fd = none then some (.thrown (.runtimeError ("Failed to open file" ++ file.name)))
  else if file.statOk = false then some .undefined
  else if file.mapOk = false ∨ file.content = [] then some (.thrown (.runtimeError "mmap failed"))
  else none

/-- The line that is printed for a file. -/
def hashLine (file : File) : List Char :=
  hexText (treeHash file.content).toList ++ "  ".toList ++ file.name.toList ++ ['\n']

/-- What is done for a file. -/
def hashEffects (file : File) : List Effect :=
  match file.fd with
  | none => [.open none, .close none]
  | some fd =>
    if file.statOk = false then [.open (some fd), .fstat fd]
    else if file.mapOk = false ∨ file.content = [] then
      [.open (some fd), .fstat fd, .mmap fd file.content.length false, .close (some fd)]
    else
      [.open (some fd), .fstat fd, .mmap fd file.content.length true,
        .munmap file.content.length, .close (some fd)]

/-- **One file**: its line is printed, or nothing and the call fails. -/
theorem run_hashFile (P : Platform) {file : File} (hsize : file.content.length < 2 ^ 64)
    (done : Done) :
    (hashFile P file).run done =
      match file.hashFailure with
      | none => .ok () ⟨done.effects ++ hashEffects file,
          printBytesAsHex file.name (treeHash file.content).toList done.cout⟩
      | some failure => .error failure ⟨done.effects ++ hashEffects file, done.cout⟩ := by
  have hdigest := digest_eq P hsize
  obtain ⟨name, content, fd, statOk, mapOk, loadError⟩ := file
  cases fd with
  | none => simp [hashFile, File.hashFailure, hashEffects, Done.act]
  | some fd =>
    cases statOk with
    | false => simp [hashFile, File.hashFailure, hashEffects, Done.act]
    | true =>
      by_cases hfails : mapOk = false ∨ content = []
      · have hok : (mapOk && !content.isEmpty) = false := by
          rcases hfails with rfl | rfl <;> simp
        simp [hashFile, File.hashFailure, hashEffects, Done.act, hok, hfails]
      · have hok : (mapOk && !content.isEmpty) = true := by simpa using hfails
        simp [hashFile, File.hashFailure, hashEffects, Done.act, Done.print, hok, hfails, hdigest]

/-- The files that are hashed: those before the first that cannot be. -/
def hashedFiles (files : List (Platform × File)) : List File :=
  (files.map Prod.snd).takeWhile fun file => file.hashFailure.isNone

/-- The first file that cannot be. -/
def firstFailing (files : List (Platform × File)) : Option File :=
  (files.map Prod.snd).find? fun file => file.hashFailure.isSome

/-- Why the call fails, if it does. -/
def firstFailure (files : List (Platform × File)) : Option Failure :=
  (firstFailing files).bind File.hashFailure

/-! ## Any number of files -/

theorem printBytesAsHex_treeHash (file : File) (os : Ostream) :
    (printBytesAsHex file.name (treeHash file.content).toList os).text =
      os.text ++ hashLine file := by
  have hne : (treeHash file.content).toList ≠ [] := by
    apply List.ne_nil_of_length_pos
    rw [Vector.length_toList]
    exact Nat.succ_pos 31
  exact printBytesAsHex_text file.name hne os

/-- What a run of the loop has done when it ends. -/
theorem run_hash (files : List (Platform × File))
    (hsize : ∀ file ∈ files, file.2.content.length < 2 ^ 64) (done : Done) :
    ∃ done' : Done, (hash files).run done =
        (match firstFailure files with
          | none => .ok () done'
          | some failure => .error failure done') ∧
      done'.cout.text = done.cout.text ++ (hashedFiles files).flatMap hashLine ∧
      done'.effects = done.effects ++ (hashedFiles files).flatMap hashEffects ++
        (firstFailing files).toList.flatMap hashEffects := by
  induction files generalizing done with
  | nil => exact ⟨done, rfl, by simp [hashedFiles], by simp [hashedFiles, firstFailing]⟩
  | cons head files ih =>
    obtain ⟨P, file⟩ := head
    have hfile := run_hashFile P (hsize (P, file) List.mem_cons_self) done
    cases hfailure : file.hashFailure with
    | some failure =>
      -- the others are not looked at
      have hfailing : firstFailing ((P, file) :: files) = some file := by
        simp [firstFailing, hfailure]
      have hfirst : firstFailure ((P, file) :: files) = some failure := by
        simp [firstFailure, hfailing, hfailure]
      rw [hfailure] at hfile
      refine ⟨⟨done.effects ++ hashEffects file, done.cout⟩, ?_, by simp [hashedFiles, hfailure],
        by simp [hashedFiles, hfailing, hfailure]⟩
      simp only [hash, List.forM_cons, hfirst, EStateM.run_bind, hfile]
    | none =>
      have hfailing : firstFailing ((P, file) :: files) = firstFailing files := by
        simp [firstFailing, hfailure]
      have hfirst : firstFailure ((P, file) :: files) = firstFailure files := by
        simp [firstFailure, hfailing]
      rw [hfailure] at hfile
      obtain ⟨done', hrun, htext, heffects⟩ :=
        ih (fun file hmem => hsize file (List.mem_cons_of_mem _ hmem))
          ⟨done.effects ++ hashEffects file,
            printBytesAsHex file.name (treeHash file.content).toList done.cout⟩
      refine ⟨done', ?_, ?_, ?_⟩
      · simp only [hash, List.forM_cons, hfirst, EStateM.run_bind, hfile]
        exact hrun
      · rw [htext, printBytesAsHex_treeHash]
        simp [hashedFiles, hfailure]
      · rw [heffects, hfailing]
        simp [hashedFiles, hfailure]

/-- A call of `hash` from the start of the program on: what it has done, and how it ends. -/
def hashCall (files : List (Platform × File)) : Done × Except Failure Unit :=
  match (hash files).run ⟨[], .cout⟩ with
  | .ok _ done => (done, .ok ())
  | .error failure done => (done, .error failure)

section Calls

variable {files : List (Platform × File)}

theorem hashCall_spec (hsize : ∀ file ∈ files, file.2.content.length < 2 ^ 63) :
    (hashCall files).1.cout.text = (hashedFiles files).flatMap hashLine ∧
      (hashCall files).1.effects = (hashedFiles files).flatMap hashEffects ++
        (firstFailing files).toList.flatMap hashEffects ∧
      (hashCall files).2 =
        (match firstFailure files with
          | none => .ok ()
          | some failure => .error failure) := by
  obtain ⟨done', hrun, htext, heffects⟩ := run_hash files
    (fun file hmem => Nat.lt_of_lt_of_le (hsize file hmem) (by decide)) ⟨[], .cout⟩
  rw [hashCall, hrun]
  cases firstFailure files with
  | none => exact ⟨htext, heffects, rfl⟩
  | some failure => exact ⟨htext, heffects, rfl⟩

end Calls

/-! ## Reading back -/

/-- Reads pairs of digits. -/
def readPairs : List Char → Option Bytes
  | [] => some []
  | high :: low :: text => do
    let high ← hexValue high
    let low ← hexValue low
    let data ← readPairs text
    some (UInt8.ofNat (16 * high + low) :: data)
  | [_] => none

/-- Reads a line: the digits of 32 bytes, two spaces, and the name. -/
def readHashLine (line : List Char) : Option (Bytes × String) := do
  let data ← readPairs (line.take 64)
  if (line.drop 64).take 2 = "  ".toList then some (data, String.ofList (line.drop 66)) else none

/-- Reads one line after another. -/
def readHashes (text : List Char) : Option (List (Bytes × String)) :=
  if _h : text = [] then some []
  else
    (readHashLine (text.takeWhile (· != '\n'))).bind fun entry =>
      (readHashes ((text.dropWhile (· != '\n')).drop 1)).map (entry :: ·)
termination_by text.length
decreasing_by
  have hpos := List.length_pos_iff.mpr _h
  have hle := (List.dropWhile_suffix (l := text) (· != '\n')).length_le
  rw [List.length_drop]
  omega

theorem readPairs_hexText (data : Bytes) : readPairs (hexText data) = some data := by
  induction data with
  | nil => rfl
  | cons byte data ih =>
    have hlt : byte.toNat < 256 := byte.toNat_lt
    have hvalue : ∀ d < 16, hexValue (hexDigit d) = some d := by
      intro d hd
      rw [hexDigit_eq_digitChar d hd]
      exact hexValue_digitChar d hd
    have hbyte : UInt8.ofNat (16 * (byte.toNat / 16) + byte.toNat % 16) = byte := by
      rw [Nat.div_add_mod, UInt8.ofNat_toNat]
    have htext : hexText (byte :: data) =
        hexDigit (byte.toNat / 16) :: hexDigit (byte.toNat % 16) :: hexText data := rfl
    rw [htext, readPairs, hvalue _ (by omega), hvalue _ (Nat.mod_lt _ (by omega)), ih]
    simp only [Option.bind_eq_bind, Option.bind_some, hbyte]

theorem length_hexText (data : Bytes) : (hexText data).length = 2 * data.length := by
  induction data with
  | nil => rfl
  | cons byte data ih =>
    have hcons : hexText (byte :: data) = hexPair byte ++ hexText data := rfl
    rw [hcons, List.length_append, ih, List.length_cons, Nat.mul_succ, Nat.add_comm]
    rfl

/-- The line of a file, without its end. -/
theorem readHashLine_append (digest : CV) (name : String) :
    readHashLine (hexText digest.toList ++ "  ".toList ++ name.toList) =
      some (digest.toList, name) := by
  have hlength : (hexText digest.toList).length = 64 := by
    rw [length_hexText, Vector.length_toList]
  have hgap : "  ".toList = [' ', ' '] := rfl
  have htake : (hexText digest.toList ++ ([' ', ' '] ++ name.toList)).take 64 =
      hexText digest.toList := List.take_left' hlength
  have hdrop : (hexText digest.toList ++ ([' ', ' '] ++ name.toList)).drop 64 =
      [' ', ' '] ++ name.toList := List.drop_left' hlength
  have hname : (hexText digest.toList ++ ([' ', ' '] ++ name.toList)).drop 66 = name.toList := by
    rw [show 66 = 64 + 2 from rfl, ← List.drop_drop, hdrop]
    rfl
  rw [readHashLine, List.append_assoc, hgap, htake, hdrop, hname, readPairs_hexText]
  simp

theorem newline_notMem_hexText (data : Bytes) : '\n' ∉ hexText data := by
  have hdigit : ∀ d < 16, '\n' ≠ hexDigit d := by decide
  intro hmem
  obtain ⟨byte, -, hpair⟩ := List.mem_flatMap.mp hmem
  have hlt : byte.toNat < 256 := byte.toNat_lt
  simp [hexPair, hdigit _ (show byte.toNat / 16 < 16 by omega),
    hdigit _ (Nat.mod_lt byte.toNat (show 0 < 16 by omega))] at hpair

/-- The next line, and what is behind it. -/
theorem readHashes_append {line : List Char} (hline : '\n' ∉ line) (text : List Char) :
    readHashes (line ++ '\n' :: text) =
      (readHashLine line).bind fun entry => (readHashes text).map (entry :: ·) := by
  have hall : ∀ c ∈ line, (c != '\n') = true := by
    intro c hc
    exact bne_iff_ne.mpr fun heq => hline (heq ▸ hc)
  have htake : (line ++ '\n' :: text).takeWhile (· != '\n') = line := by
    rw [List.takeWhile_append_of_pos hall, List.takeWhile_cons_of_neg (by decide),
      List.append_nil]
  have hdrop : ((line ++ '\n' :: text).dropWhile (· != '\n')).drop 1 = text := by
    rw [List.dropWhile_append_of_pos hall, List.dropWhile_cons_of_neg (by decide), List.drop_one,
      List.tail_cons]
  rw [readHashes, dif_neg (by simp), htake, hdrop]

theorem readHashes_flatMap {files : List File}
    (hnames : ∀ file ∈ files, '\n' ∉ file.name.toList) :
    readHashes (files.flatMap hashLine) =
      some (files.map fun file => ((treeHash file.content).toList, file.name)) := by
  induction files with
  | nil => rw [List.flatMap_nil, readHashes, dif_pos rfl, List.map_nil]
  | cons file files ih =>
    have hline : '\n' ∉
        hexText (treeHash file.content).toList ++ "  ".toList ++ file.name.toList := by
      have hgap : '\n' ∉ "  ".toList := by decide
      simp only [List.mem_append, newline_notMem_hexText, hgap,
        hnames file List.mem_cons_self, or_self, not_false_eq_true]
    rw [List.flatMap_cons, hashLine, List.append_assoc _ ['\n'], List.singleton_append,
      readHashes_append hline, readHashLine_append,
      ih fun file hmem => hnames file (List.mem_cons_of_mem _ hmem)]
    rfl

/-- **What `hash` prints is read back** as the hashes and the names, if there is no newline in a
name. -/
theorem hash_reads_back (files : List (Platform × File))
    (hsize : ∀ file ∈ files, file.2.content.length < 2 ^ 63)
    (hnames : ∀ file ∈ files, '\n' ∉ file.2.name.toList) :
    readHashes (hashCall files).1.cout.text =
      some ((hashedFiles files).map fun file => ((treeHash file.content).toList, file.name)) := by
  rw [(hashCall_spec hsize).1]
  apply readHashes_flatMap
  intro file hmem
  obtain ⟨pair, hpair, rfl⟩ := List.mem_map.mp ((List.takeWhile_prefix _).subset hmem)
  exact hnames pair hpair

theorem hash_reads_back_two_files :
    readHashes (hashCall [(⟨4, default⟩, ⟨"a", [97], some 3, true, true, none⟩),
        (⟨0, default⟩, ⟨"b", [98], some 3, true, true, none⟩)]).1.cout.text =
      some [((treeHash [97]).toList, "a"), ((treeHash [98]).toList, "b")] :=
  hash_reads_back [(⟨4, default⟩, ⟨"a", [97], some 3, true, true, none⟩),
    (⟨0, default⟩, ⟨"b", [98], some 3, true, true, none⟩)] (by decide) (by decide)

/-! ## What is taken and given back -/

namespace Resources

variable {r : Resources} {effects : List Effect}

def takesDescriptor : Effect → Bool
  | .open (some _) => true
  | _ => false

def takesMapping : Effect → Bool
  | .mmap _ _ true => true
  | _ => false

/-- No more is held than has been taken. -/
theorem card_after_le (r : Resources) (effects : List Effect) :
    (r.after effects).descriptors.card ≤ r.descriptors.card + effects.countP takesDescriptor ∧
      (r.after effects).mappings.card ≤ r.mappings.card + effects.countP takesMapping := by
  induction effects generalizing r with
  | nil => exact ⟨le_rfl, le_rfl⟩
  | cons effect effects ih =>
    obtain ⟨hdescriptors, hmappings⟩ := ih (r.apply effect)
    have hstep : (r.apply effect).descriptors.card ≤
          r.descriptors.card + (if takesDescriptor effect then 1 else 0) ∧
        (r.apply effect).mappings.card ≤
          r.mappings.card + (if takesMapping effect then 1 else 0) := by
      unfold apply
      split
      · exact ⟨Finset.card_insert_le _ _, le_rfl⟩
      · exact ⟨Finset.card_le_card (Finset.erase_subset _ _), le_rfl⟩
      · exact ⟨le_rfl, (Multiset.card_cons _ _).le⟩
      · exact ⟨le_rfl, Multiset.card_le_card (Multiset.erase_le _ _)⟩
      · exact ⟨Nat.le_add_right _ _, Nat.le_add_right _ _⟩
    rw [after_cons, List.countP_cons, List.countP_cons]
    omega

end Resources

/-- **A file gives back what it takes**, whether it is hashed or not. -/
theorem after_hashEffects {r : Resources} {file : File}
    (hfresh : r.OpensFresh (hashEffects file)) (h : file.hashFailure ≠ some .undefined) :
    r.after (hashEffects file) = r := by
  revert hfresh h
  unfold hashEffects File.hashFailure
  cases file.fd with
  | none => exact fun _ _ => rfl
  | some fd =>
    intro hfresh h
    simp only [reduceCtorEq, if_false] at hfresh h ⊢
    split at hfresh
    case isTrue hstat => exact absurd (if_pos hstat) h
    case isFalse hstat =>
      rw [if_neg hstat]
      split at hfresh
      case isTrue hfails =>
        rw [if_pos hfails]
        exact Resources.close_open (hfresh.1 _ rfl)
      case isFalse hok =>
        -- the mapping comes and goes
        rw [if_neg hok]
        have hnew := hfresh.1 fd rfl
        simp [Resources.apply, hnew]

/-- At most one descriptor and one mapping are taken. -/
theorem countP_hashEffects_le (file : File) :
    (hashEffects file).countP Resources.takesDescriptor ≤ 1 ∧
      (hashEffects file).countP Resources.takesMapping ≤ 1 := by
  unfold hashEffects
  split
  · decide
  · split
    · exact ⟨le_rfl, Nat.zero_le _⟩
    · split
      · exact ⟨le_rfl, Nat.zero_le _⟩
      · exact ⟨le_rfl, le_rfl⟩

/-- In a file at most one more descriptor and one more mapping are held. -/
theorem card_after_hashEffects_le (r : Resources) {file : File} {pre : List Effect}
    (hpre : pre <+: hashEffects file) :
    (r.after pre).descriptors.card ≤ r.descriptors.card + 1 ∧
      (r.after pre).mappings.card ≤ r.mappings.card + 1 := by
  obtain ⟨hdescriptors, hmappings⟩ := Resources.card_after_le r pre
  obtain ⟨hopens, hmaps⟩ := countP_hashEffects_le file
  have hopensPre := hpre.sublist.countP_le (p := Resources.takesDescriptor)
  have hmapsPre := hpre.sublist.countP_le (p := Resources.takesMapping)
  omega

/-- Files that are hashed give everything back, and so does the one that is not. -/
theorem after_attempted {r : Resources} {files : List File} {failing : Option File}
    (hfiles : ∀ file ∈ files, file.hashFailure = none)
    (hfresh : r.OpensFresh
      (files.flatMap hashEffects ++ failing.toList.flatMap hashEffects)) :
    (failing.bind File.hashFailure ≠ some .undefined →
        r.after (files.flatMap hashEffects ++ failing.toList.flatMap hashEffects) = r) ∧
      ∀ pre, pre <+: files.flatMap hashEffects ++ failing.toList.flatMap hashEffects →
        (r.after pre).descriptors.card ≤ r.descriptors.card + 1 ∧
          (r.after pre).mappings.card ≤ r.mappings.card + 1 := by
  induction files with
  | nil =>
    cases failing with
    | none =>
      refine ⟨fun _ => rfl, fun pre hpre => ?_⟩
      obtain rfl : pre = [] := List.prefix_nil.mp hpre
      exact ⟨Nat.le_succ _, Nat.le_succ _⟩
    | some file =>
      simp only [List.flatMap_nil, List.nil_append, Option.toList_some, List.flatMap_singleton,
        Option.bind_some] at hfresh ⊢
      exact ⟨after_hashEffects hfresh, fun pre hpre => card_after_hashEffects_le r hpre⟩
  | cons file files ih =>
    rw [List.flatMap_cons, List.append_assoc, Resources.opensFresh_append] at hfresh
    have hfile : r.after (hashEffects file) = r :=
      after_hashEffects hfresh.1 (by simp [hfiles file List.mem_cons_self])
    rw [hfile] at hfresh
    obtain ⟨hrestores, hmoments⟩ :=
      ih (fun file hmem => hfiles file (List.mem_cons_of_mem _ hmem)) hfresh.2
    rw [List.flatMap_cons, List.append_assoc]
    refine ⟨fun hdefined => ?_, fun pre hpre => ?_⟩
    · rw [Resources.after_append, hfile, hrestores hdefined]
    · rcases List.prefix_or_prefix_of_prefix hpre (List.prefix_append _ _) with hpre' | ⟨t, rfl⟩
      · exact card_after_hashEffects_le r hpre'
      · rw [Resources.after_append, hfile]
        exact hmoments t ((List.prefix_append_right_inj _).mp hpre)

/-- **`hash` releases what it acquires.**  Over any files, whether it returns or throws, the open
descriptors and the mapped regions are as they were, and at no moment is more than one more of each
held. -/
theorem hash_releases (files : List (Platform × File))
    (hsize : ∀ file ∈ files, file.2.content.length < 2 ^ 63) (r : Resources)
    (hfresh : r.OpensFresh (hashCall files).1.effects) :
    ((hashCall files).2 ≠ .error .undefined → r.after (hashCall files).1.effects = r) ∧
      ∀ pre, pre <+: (hashCall files).1.effects →
        (r.after pre).descriptors.card ≤ r.descriptors.card + 1 ∧
          (r.after pre).mappings.card ≤ r.mappings.card + 1 := by
  obtain ⟨-, heffects, hresult⟩ := hashCall_spec hsize
  have hhashed : ∀ file ∈ hashedFiles files, file.hashFailure = none := by
    intro file hmem
    simpa using List.mem_takeWhile_imp hmem
  rw [heffects] at hfresh ⊢
  obtain ⟨hrestores, hmoments⟩ := after_attempted hhashed hfresh
  refine ⟨fun hdefined => hrestores fun hundefined => hdefined ?_, hmoments⟩
  have hfirst : firstFailure files = some .undefined := hundefined
  rw [hresult, hfirst]

/-- The second file cannot be mapped. -/
theorem hash_releases_two_files :
    let files : List (Platform × File) := [(⟨4, default⟩, ⟨"a", [97], some 3, true, true, none⟩),
      (⟨4, default⟩, ⟨"b", [98], some 3, true, false, none⟩)]
    Resources.standard.after (hashCall files).1.effects = Resources.standard := by
  intro files
  have hsize : ∀ file ∈ files, file.2.content.length < 2 ^ 63 := by decide
  obtain ⟨-, heffects, hresult⟩ := hashCall_spec hsize
  have hfresh : Resources.standard.OpensFresh (hashCall files).1.effects := by
    rw [heffects]
    decide
  have hdefined : (hashCall files).2 ≠ .error .undefined := by
    rw [hresult]
    decide
  exact (hash_releases files hsize Resources.standard hfresh).1 hdefined

end Dataprint
