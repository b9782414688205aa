import Dataprint.Foundations.Utf8
import Dataprint.Stage1.Blocks
import Mathlib.Data.List.GetD

/-!
# The UTF-8 Checker of simdjson

`utf8_checker` (`src/simdjson.cpp`) looks at every byte together with the three bytes before it, a
vector of them at a time, and skips blocks of ASCII.

- `Window` is a byte's context, and `Window.At` relates it to a position in a character;
- `Utf8Checker.Represents` is what the checker knows of the text so far;
- `isUtf8_take_trimPartialUtf8` — what `trim_partial_utf8` leaves of a text that was cut off.
-/

namespace Dataprint.Stage1

open Foundations Position

/-! ## A byte and the ones before it -/

def TOO_SHORT : UInt8 := (1 : UInt8) <<< 0
def TOO_LONG : UInt8 := (1 : UInt8) <<< 1
def OVERLONG_3 : UInt8 := (1 : UInt8) <<< 2
def TOO_LARGE : UInt8 := (1 : UInt8) <<< 3
def SURROGATE : UInt8 := (1 : UInt8) <<< 4
def OVERLONG_2 : UInt8 := (1 : UInt8) <<< 5
def TOO_LARGE_1000 : UInt8 := (1 : UInt8) <<< 6
def OVERLONG_4 : UInt8 := (1 : UInt8) <<< 6
def TWO_CONTS : UInt8 := (1 : UInt8) <<< 7
def CARRY : UInt8 := TOO_SHORT ||| TOO_LONG ||| TWO_CONTS

/-- The errors that the high half of the first of two bytes allows. -/
def byte1High : Vector UInt8 16 := #v[
  TOO_LONG, TOO_LONG, TOO_LONG, TOO_LONG, TOO_LONG, TOO_LONG, TOO_LONG, TOO_LONG,
  TWO_CONTS, TWO_CONTS, TWO_CONTS, TWO_CONTS,
  TOO_SHORT ||| OVERLONG_2,
  TOO_SHORT,
  TOO_SHORT ||| OVERLONG_3 ||| SURROGATE,
  TOO_SHORT ||| TOO_LARGE ||| TOO_LARGE_1000 ||| OVERLONG_4]

/-- The errors that its low half allows. -/
def byte1Low : Vector UInt8 16 := #v[
  CARRY ||| OVERLONG_3 ||| OVERLONG_2 ||| OVERLONG_4,
  CARRY ||| OVERLONG_2,
  CARRY,
  CARRY,
  CARRY ||| TOO_LARGE,
  CARRY ||| TOO_LARGE ||| TOO_LARGE_1000,
  CARRY ||| TOO_LARGE ||| TOO_LARGE_1000,
  CARRY ||| TOO_LARGE ||| TOO_LARGE_1000,
  CARRY ||| TOO_LARGE ||| TOO_LARGE_1000,
  CARRY ||| TOO_LARGE ||| TOO_LARGE_1000,
  CARRY ||| TOO_LARGE ||| TOO_LARGE_1000,
  CARRY ||| TOO_LARGE ||| TOO_LARGE_1000,
  CARRY ||| TOO_LARGE ||| TOO_LARGE_1000,
  CARRY ||| TOO_LARGE ||| TOO_LARGE_1000 ||| SURROGATE,
  CARRY ||| TOO_LARGE ||| TOO_LARGE_1000,
  CARRY ||| TOO_LARGE ||| TOO_LARGE_1000]

/-- The errors that the high half of the second byte allows. -/
def byte2High : Vector UInt8 16 := #v[
  TOO_SHORT, TOO_SHORT, TOO_SHORT, TOO_SHORT, TOO_SHORT, TOO_SHORT, TOO_SHORT, TOO_SHORT,
  TOO_LONG ||| OVERLONG_2 ||| TWO_CONTS ||| OVERLONG_3 ||| TOO_LARGE_1000 ||| OVERLONG_4,
  TOO_LONG ||| OVERLONG_2 ||| TWO_CONTS ||| OVERLONG_3 ||| TOO_LARGE,
  TOO_LONG ||| OVERLONG_2 ||| TWO_CONTS ||| SURROGATE ||| TOO_LARGE,
  TOO_LONG ||| OVERLONG_2 ||| TWO_CONTS ||| SURROGATE ||| TOO_LARGE,
  TOO_SHORT, TOO_SHORT, TOO_SHORT, TOO_SHORT]

/-- The low half of a byte. -/
def nibble (n : ℕ) : Fin 16 := ⟨n % 16, Nat.mod_lt n (Nat.zero_lt_succ 15)⟩

theorem nibble_mod (n : ℕ) : nibble (n % 16) = nibble n := Fin.ext (Nat.mod_mod n 16)

/-- `lookup_16`, of a byte below 16. -/
def lookup16 (table : Vector UInt8 16) (c : UInt8) : UInt8 := table.get (nibble c.toNat)

/-- `check_special_cases`, of a byte. -/
def checkSpecialCases (input prev1 : UInt8) : UInt8 :=
  lookup16 byte1High (prev1 >>> 4) &&& lookup16 byte1Low (prev1 &&& 0x0f) &&&
    lookup16 byte2High (input >>> 4)

/-- `must_be_2_3_continuation`, of a byte. -/
def mustBe23Continuation (prev2 prev3 : UInt8) : UInt8 :=
  saturatingSub prev2 (0xe0 - 0x80) ||| saturatingSub prev3 (0xf0 - 0x80)

/-! ## Vectors of bytes -/

/-- `prev<N>`: a vector shifted by some bytes, which come from the one before it. -/
def prev (N : ℕ) (chunk prevChunk : Bytes) : Bytes :=
  ((prevChunk ++ chunk).drop (prevChunk.length - N)).take chunk.length

/-- `check_multibyte_lengths`. -/
def checkMultibyteLengths (input prevInput sc : Bytes) : Bytes :=
  let prev2 := prev 2 input prevInput
  let prev3 := prev 3 input prevInput
  let must23 := List.zipWith mustBe23Continuation prev2 prev3
  let must23_80 := must23.map (· &&& 0x80)
  List.zipWith (· ^^^ ·) must23_80 sc

/-- `max_value`: only the last three bytes can be larger than theirs. -/
def maxValue (size : ℕ) : Bytes := List.replicate (size - 3) 0xff ++ [0xf0 - 1, 0xe0 - 1, 0xc0 - 1]

theorem length_maxValue {size : ℕ} (h : 3 ≤ size) : (maxValue size).length = size := by
  simp [maxValue, Nat.sub_add_cancel h]

/-- `is_incomplete`. -/
def isIncomplete (K : Kernel) (input : Bytes) : Bytes :=
  List.zipWith K.gtBits input (maxValue K.simdSize)

/-- `any_bits_set_anywhere`. -/
def anyBitsSet (chunk : Bytes) : Bool := chunk.any (· != 0)

/-- `is_ascii`. -/
def isAscii (block : Simd8x64) : Bool := block.toList.all (· < 0x80)

/-- `chunks` of a block: so many vectors of that many bytes. -/
def chunksOf (size : ℕ) : ℕ → Bytes → List Bytes
  | 0, _ => []
  | n + 1, bytes => bytes.take size :: chunksOf size n (bytes.drop size)

/-- `utf8_checker`. -/
structure Utf8Checker where
  error : Bytes
  prevInputBlock : Bytes
  prevIncomplete : Bytes

namespace Utf8Checker

/-- At the start of a text. -/
def start (K : Kernel) : Utf8Checker where
  error := List.replicate K.simdSize 0
  prevInputBlock := List.replicate K.simdSize 0
  prevIncomplete := List.replicate K.simdSize 0

/-- `error |= bits`. -/
def addError (self : Utf8Checker) (bits : Bytes) : Utf8Checker :=
  { self with error := List.zipWith (· ||| ·) self.error bits }

/-- `check_utf8_bytes`. -/
def checkUtf8Bytes (self : Utf8Checker) (input prevInput : Bytes) : Utf8Checker :=
  let prev1 := prev 1 input prevInput
  let sc := List.zipWith checkSpecialCases input prev1
  self.addError (checkMultibyteLengths input prevInput sc)

/-- `check_utf8_bytes` of all vectors of a block. -/
def checkChunks (self : Utf8Checker) (prevInput : Bytes) : List Bytes → Utf8Checker
  | [] => self
  | chunk :: chunks => (self.checkUtf8Bytes chunk prevInput).checkChunks chunk chunks

/-- `check_eof`. -/
def checkEof (self : Utf8Checker) : Utf8Checker := self.addError self.prevIncomplete

/-- `check_next_input`. -/
def checkNextInput (K : Kernel) (self : Utf8Checker) (input : Simd8x64) : Utf8Checker :=
  if isAscii input then self.addError self.prevIncomplete
  else
    let chunks := chunksOf K.simdSize (64 / K.simdSize) input.toList
    let last := chunks.getLastD []
    { self.checkChunks self.prevInputBlock chunks with
      prevIncomplete := isIncomplete K last, prevInputBlock := last }

/-- `errors`. -/
def errors (self : Utf8Checker) : Except ErrorCode Unit :=
  if anyBitsSet self.error then .error .utf8Error else .ok ()

end Utf8Checker

/-! ## Errors at a byte -/

/-- The third or fourth byte of a character. -/
theorem mustBe23Continuation_eq (prev2 prev3 : UInt8) :
    mustBe23Continuation prev2 prev3 &&& 0x80 =
      if 0xe0 ≤ prev2.toNat ∨ 0xf0 ≤ prev3.toNat then 0x80 else 0 := by
  have hthird : saturatingSub prev2 (0xe0 - 0x80) &&& 0x80 =
      if 0xe0 ≤ prev2.toNat then 0x80 else 0 := by
    revert prev2
    apply forall_byte
    decide +kernel
  have hfourth : saturatingSub prev3 (0xf0 - 0x80) &&& 0x80 =
      if 0xf0 ≤ prev3.toNat then 0x80 else 0 := by
    revert prev3
    apply forall_byte
    decide +kernel
  have hdistrib : ∀ x y : UInt8, (x ||| y) &&& 0x80 = x &&& 0x80 ||| y &&& 0x80 := by
    intro x y
    simp [← UInt8.toBitVec_inj, BitVec.and_or_distrib_right]
  rw [mustBe23Continuation, hdistrib, hthird, hfourth]
  by_cases h2 : 0xe0 ≤ prev2.toNat <;> by_cases h3 : 0xf0 ≤ prev3.toNat <;> simp [h2, h3]

/-- The three tables, at halves of bytes. -/
def specials (high1 low1 high2 : ℕ) : UInt8 :=
  byte1High.get (nibble high1) &&& byte1Low.get (nibble low1) &&& byte2High.get (nibble high2)

theorem checkSpecialCases_eq (b prev1 : UInt8) :
    checkSpecialCases b prev1 = specials (prev1.toNat / 16) prev1.toNat (b.toNat / 16) := by
  have hlow : (prev1 &&& 0x0f).toNat = prev1.toNat % 16 := by
    rw [UInt8.toNat_and]
    show prev1.toNat &&& (2 ^ 4 - 1) = _
    rw [Nat.and_two_pow_sub_one_eq_mod]
  have hhigh : ∀ c : UInt8, (c >>> 4).toNat = c.toNat / 16 := by
    intro c
    rw [UInt8.toNat_shiftRight]
    show c.toNat >>> 4 = _
    rw [Nat.shiftRight_eq_div_pow]
  simp only [checkSpecialCases, lookup16, specials, hlow, hhigh, nibble_mod]

/-- A continuation byte. -/
def IsContinuation (b : UInt8) : Prop := 0x80 ≤ b.toNat ∧ b.toNat < 0xc0

instance (b : UInt8) : Decidable (IsContinuation b) := inferInstanceAs (Decidable (_ ∧ _))

/-- After ASCII and after a continuation byte. -/
theorem specials_of_lt (h1 l1 h2 : Fin 16) (h : h1.val < 12) :
    specials h1 l1 h2 =
      if 8 ≤ h2.val ∧ h2.val < 12 then if h1.val < 8 then TOO_LONG else TWO_CONTS else 0 := by
  revert h1 l1 h2
  decide +kernel

/-- A position takes bytes of a high half. -/
def takes (p : Option Position) (high : ℕ) : Bool :=
  match p with
  | some p => p.low ≤ 16 * high && 16 * high ≤ p.high
  | none => false

/-- After the first byte of a longer character. -/
theorem specials_eq_zero_iff (h1 l1 h2 : Fin 16) (h : 12 ≤ h1.val) :
    (specials h1 l1 h2 == 0) = takes (lead (16 * h1 + l1)) h2 := by
  revert h1 l1 h2
  decide +kernel

/-- Bounds go by high halves. -/
theorem lead_bounds {n : ℕ} {p : Position} (h : 0xc0 ≤ n) (hp : lead n = some p) (b : ℕ) :
    (p.low ≤ 16 * (b / 16) ∧ 16 * (b / 16) ≤ p.high) ↔ (p.low ≤ b ∧ b ≤ p.high) := by
  obtain rfl | ⟨-, -, rfl⟩ | ⟨-, -, rfl⟩ | ⟨-, -, rfl⟩ := lead_cases h hp
  · simp only [stuck]
    omega
  · simp only [before]
    omega
  · simp only
    split <;> split <;> omega
  · simp only
    split <;> split <;> omega

/-- What is taken after a first byte is a continuation byte. -/
theorem isContinuation_of_lead {n : ℕ} {p : Position} {b : UInt8} (h : 0xc0 ≤ n)
    (hp : lead n = some p) (hb : p.low ≤ b.toNat ∧ b.toNat ≤ p.high) : IsContinuation b := by
  unfold IsContinuation
  obtain rfl | ⟨-, -, rfl⟩ | ⟨-, -, rfl⟩ | ⟨-, -, rfl⟩ := lead_cases h hp
  · simp only [stuck] at hb
    omega
  · simp only [before] at hb
    omega
  · simp only at hb
    split at hb <;> split at hb <;> omega
  · simp only at hb
    split at hb <;> split at hb <;> omega

theorem step_before (n : ℕ) (b : UInt8) :
    (before (n + 1)).step b = if IsContinuation b then some (before n) else none := by
  have hbounds : (0x80 ≤ b.toNat ∧ b.toNat ≤ 0xbf) ↔ IsContinuation b := by
    unfold IsContinuation
    omega
  simp only [Position.step, before, hbounds]

section SpecialCases

variable {b prev1 : UInt8}

/-- No byte of a character is a continuation byte after ASCII, or after the last one that may be. -/
theorem checkSpecialCases_of_lt (h : prev1.toNat < 0xc0) :
    checkSpecialCases b prev1 =
      if IsContinuation b then if prev1.toNat < 0x80 then TOO_LONG else TWO_CONTS else 0 := by
  have hb := b.toNat_lt
  have hspecials := specials_of_lt ⟨prev1.toNat / 16, by omega⟩ ⟨prev1.toNat % 16, by omega⟩
    ⟨b.toNat / 16, by omega⟩ (by simp only; omega)
  have hcontinuation : 8 ≤ b.toNat / 16 ∧ b.toNat / 16 < 12 ↔ IsContinuation b := by
    unfold IsContinuation
    omega
  have hascii : prev1.toNat / 16 < 8 ↔ prev1.toNat < 0x80 := by omega
  rw [checkSpecialCases_eq]
  simp only [hcontinuation, hascii] at hspecials
  rw [← hspecials]
  simp only [specials, nibble_mod]

/-- **Of a byte after the first of a longer character**: the tables have its bounds. -/
theorem checkSpecialCases_eq_zero_iff {p : Position} (h : 0xc0 ≤ prev1.toNat)
    (hp : lead prev1.toNat = some p) :
    checkSpecialCases b prev1 = 0 ↔ p.low ≤ b.toNat ∧ b.toNat ≤ p.high := by
  have hb := b.toNat_lt
  have hprev := prev1.toNat_lt
  have hspecials := specials_eq_zero_iff ⟨prev1.toNat / 16, by omega⟩ ⟨prev1.toNat % 16, by omega⟩
    ⟨b.toNat / 16, by omega⟩ (by simp only; omega)
  rw [Bool.eq_iff_iff] at hspecials
  simp only [Nat.div_add_mod, hp, takes, beq_iff_eq, Bool.and_eq_true, decide_eq_true_eq]
    at hspecials
  rw [← lead_bounds h hp, checkSpecialCases_eq, ← hspecials]
  simp only [specials, nibble_mod]

end SpecialCases

/-! ## Windows -/

/-- The three bytes before one. -/
structure Window where
  prev3 : UInt8
  prev2 : UInt8
  prev1 : UInt8

namespace Window

/-- Before the first byte of a text. -/
def start : Window := ⟨0, 0, 0⟩

/-- One byte further. -/
def next (w : Window) (b : UInt8) : Window := ⟨w.prev2, w.prev1, b⟩

def after (w : Window) (bytes : Bytes) : Window := bytes.foldl next w

/-- What the checker computes for a byte. -/
def error (w : Window) (b : UInt8) : UInt8 :=
  mustBe23Continuation w.prev2 w.prev3 &&& 0x80 ^^^ checkSpecialCases b w.prev1

/-- No byte has an error. -/
def Clean : Window → Bytes → Prop
  | _, [] => True
  | w, b :: bytes => w.error b = 0 ∧ Clean (w.next b) bytes

/-- Where in a character a window is, if it was reached without errors. -/
inductive At (w : Window) : Position → Prop where
  | done (h1 : w.prev1.toNat < 0xc0) (h2 : w.prev2.toNat < 0xe0) (h3 : w.prev3.toNat < 0xf0) :
      At w betweenChars
  | first {p : Position} (h1 : 0xc0 ≤ w.prev1.toNat) (h2 : w.prev2.toNat < 0xc0)
      (h3 : w.prev3.toNat < 0xe0) (hlead : lead w.prev1.toNat = some p) : At w p
  | second (h1 : IsContinuation w.prev1) (h2 : 0xe0 ≤ w.prev2.toNat) (h3 : w.prev3.toNat < 0xc0) :
      At w (before (if w.prev2.toNat < 0xf0 then 1 else 2))
  | third (h1 : IsContinuation w.prev1) (h2 : IsContinuation w.prev2)
      (h3 : 0xf0 ≤ w.prev3.toNat) : At w (before 1)

theorem start_at : start.At betweenChars := .done (by decide) (by decide) (by decide)

variable {w : Window} {p : Position} {b : UInt8}

/-- The second of two bytes is checked by the tables only. -/
theorem error_of_lt (h2 : w.prev2.toNat < 0xe0) (h3 : w.prev3.toNat < 0xf0) :
    w.error b = checkSpecialCases b w.prev1 := by
  simp [error, mustBe23Continuation_eq, Nat.not_le.mpr h2, Nat.not_le.mpr h3]

/-- A third or fourth byte has to be a continuation byte. -/
theorem error_eq_zero_iff_of_le (h1 : IsContinuation w.prev1)
    (h : 0xe0 ≤ w.prev2.toNat ∨ 0xf0 ≤ w.prev3.toNat) : w.error b = 0 ↔ IsContinuation b := by
  rw [error, mustBe23Continuation_eq, if_pos h, checkSpecialCases_of_lt h1.2,
    if_neg (Nat.not_lt.mpr h1.1)]
  by_cases hb : IsContinuation b
  · simp only [hb, if_true, iff_true]
    decide
  · simp [hb]

/-- The window moves as the reader does: a byte has no error and is taken, or it has and is not. -/
def Steps (w : Window) (p : Position) (b : UInt8) : Prop :=
  (w.error b = 0 ∧ ∃ q, p.step b = some q ∧ (w.next b).At q) ∨ (w.error b ≠ 0 ∧ p.step b = none)

/-- Between characters ASCII and first bytes are taken. -/
theorem steps_done (h1 : w.prev1.toNat < 0xc0) (h2 : w.prev2.toNat < 0xe0)
    (h3 : w.prev3.toNat < 0xf0) (b : UInt8) : w.Steps betweenChars b := by
  rw [Steps, error_of_lt h2 h3, checkSpecialCases_of_lt h1, step_betweenChars]
  rcases Nat.lt_or_ge b.toNat 0x80 with hascii | h80
  · left
    rw [if_neg (fun hb => Nat.not_lt.mpr hb.1 hascii), lead_one hascii]
    exact ⟨rfl, _, rfl, .done (Nat.lt_of_lt_of_le hascii (by decide))
      (Nat.lt_of_lt_of_le h1 (by decide)) (Nat.lt_of_lt_of_le h2 (by decide))⟩
  rcases Nat.lt_or_ge b.toNat 0xc0 with hcontinuation | hc0
  · right
    rw [if_pos ⟨h80, hcontinuation⟩, lead_continuation ⟨h80, hcontinuation⟩]
    refine ⟨?_, rfl⟩
    split <;> decide
  · left
    obtain ⟨q, hq⟩ := exists_lead hc0
    rw [if_neg (fun hb => Nat.not_lt.mpr hc0 hb.2)]
    exact ⟨rfl, q, hq, .first hc0 h1 h2 hq⟩

/-- Behind the first byte of a character the tables know the bounds of the second. -/
theorem steps_first (h1 : 0xc0 ≤ w.prev1.toNat) (h2 : w.prev2.toNat < 0xc0)
    (h3 : w.prev3.toNat < 0xe0) (hlead : lead w.prev1.toNat = some p) (b : UInt8) :
    w.Steps p b := by
  rw [Steps, error_of_lt (by omega) (by omega), ne_eq, checkSpecialCases_eq_zero_iff h1 hlead]
  by_cases hb : p.low ≤ b.toNat ∧ b.toNat ≤ p.high
  · left
    have hcontinuation := isContinuation_of_lead h1 hlead hb
    refine ⟨hb, ?_⟩
    -- the first byte of no character, of two bytes, of three, of four
    obtain rfl | ⟨-, he0, rfl⟩ | ⟨he0, hf0, rfl⟩ | ⟨hf0, -, rfl⟩ := lead_cases h1 hlead
    · simp only [stuck] at hb
      omega
    · exact ⟨_, step_missing hb.1 hb.2,
        .done hcontinuation.2 he0 (Nat.lt_of_lt_of_le h2 (by decide))⟩
    · have hsecond : (w.next b).At _ := .second hcontinuation he0 h2
      rw [next, if_pos hf0] at hsecond
      exact ⟨_, step_missing hb.1 hb.2, hsecond⟩
    · have hsecond : (w.next b).At _ := .second hcontinuation (Nat.le_trans (by decide) hf0) h2
      rw [next, if_neg (Nat.not_lt.mpr hf0)] at hsecond
      exact ⟨_, step_missing hb.1 hb.2, hsecond⟩
  · right
    refine ⟨hb, ?_⟩
    obtain rfl | ⟨-, -, rfl⟩ | ⟨-, -, rfl⟩ | ⟨-, -, rfl⟩ := lead_cases h1 hlead
    all_goals exact if_neg hb

/-- Further into a character exactly the continuation bytes are taken. -/
theorem steps_before {n : ℕ} (h1 : IsContinuation w.prev1)
    (h : 0xe0 ≤ w.prev2.toNat ∨ 0xf0 ≤ w.prev3.toNat)
    (hnext : IsContinuation b → (w.next b).At (before n)) : w.Steps (before (n + 1)) b := by
  rw [Steps, ne_eq, error_eq_zero_iff_of_le h1 h, step_before]
  by_cases hb : IsContinuation b
  · rw [if_pos hb]
    exact .inl ⟨hb, before n, rfl, hnext hb⟩
  · rw [if_neg hb]
    exact .inr ⟨hb, rfl⟩

/-- **A byte without an error is one that the position takes**, and the window moves with it. -/
theorem At.step (h : w.At p) (b : UInt8) : w.Steps p b := by
  cases h with
  | done h1 h2 h3 => exact steps_done h1 h2 h3 b
  | first h1 h2 h3 hlead => exact steps_first h1 h2 h3 hlead b
  | second h1 h2 h3 =>
    split
    case isTrue hf0 =>
      exact steps_before h1 (.inl h2) fun hb =>
        .done hb.2 (Nat.lt_of_lt_of_le h1.2 (by decide)) hf0
    case isFalse hf0 =>
      exact steps_before h1 (.inl h2) fun hb => .third hb h1 (Nat.le_of_not_lt hf0)
  | third h1 h2 h3 =>
    exact steps_before h1 (.inr h3) fun hb =>
      .done hb.2 (Nat.lt_of_lt_of_le h1.2 (by decide)) (Nat.lt_of_lt_of_le h2.2 (by decide))

/-- ASCII ends no character. -/
theorem At.step_ascii (h : w.At p) (hp : p ≠ betweenChars) (hb : b.toNat < 0x80) :
    p.step b = none := by
  have hcontinuation : ¬ IsContinuation b := fun h => Nat.not_lt.mpr h.1 hb
  cases h with
  | done => exact absurd rfl hp
  | first h1 h2 h3 hlead =>
    have htakes : ¬ (p.low ≤ b.toNat ∧ b.toNat ≤ p.high) :=
      fun h => hcontinuation (isContinuation_of_lead h1 hlead h)
    obtain rfl | ⟨-, -, rfl⟩ | ⟨-, -, rfl⟩ | ⟨-, -, rfl⟩ := lead_cases h1 hlead
    all_goals exact if_neg htakes
  | second =>
    split <;> rw [step_before, if_neg hcontinuation]
  | third => rw [step_before, if_neg hcontinuation]

/-- **A text without errors is one that is read**, and the window ends where the reader does. -/
theorem At.clean_iff (h : w.At p) (bytes : Bytes) :
    (w.Clean bytes ∧ ∃ q, p.decode bytes = some q ∧ (w.after bytes).At q) ∨
      (¬ w.Clean bytes ∧ p.decode bytes = none) := by
  -- on the bytes, with the position and the window moving together
  induction bytes generalizing w p with
  | nil => exact .inl ⟨trivial, p, rfl, h⟩
  | cons b bytes ih =>
    rw [decode_cons]
    obtain ⟨hzero, q, hq, hnext⟩ | ⟨herror, hnone⟩ := h.step b
    · rw [hq]
      obtain ⟨hclean, r, hr, hafter⟩ | ⟨hclean, hnone⟩ := ih hnext
      · exact .inl ⟨⟨hzero, hclean⟩, r, hr, hafter⟩
      · exact .inr ⟨fun h => hclean h.2, hnone⟩
    · rw [hnone]
      exact .inr ⟨fun h => herror h.1, rfl⟩

/-- Between characters no byte may be followed by a continuation byte. -/
def Complete (w : Window) : Prop :=
  w.prev1.toNat < 0xc0 ∧ w.prev2.toNat < 0xe0 ∧ w.prev3.toNat < 0xf0

theorem At.complete_iff (h : w.At p) : w.Complete ↔ p = betweenChars := by
  constructor
  · rintro ⟨h1, h2, h3⟩
    cases h with
    | done => rfl
    | first hfirst => omega
    | second _ hsecond => omega
    | third _ _ hthird => omega
  · intro hp
    have hmissing := congrArg Position.missing hp
    -- after the first byte of a character something is missing
    cases h with
    | done h1 h2 h3 => exact ⟨h1, h2, h3⟩
    | first h1 h2 h3 hlead =>
      obtain rfl | ⟨-, -, rfl⟩ | ⟨-, -, rfl⟩ | ⟨-, -, rfl⟩ := lead_cases h1 hlead
      all_goals simp [stuck, before, betweenChars] at hmissing
    | second =>
      simp only [before, betweenChars] at hmissing
      split at hmissing <;> exact absurd hmissing (by decide)
    | third => exact absurd hmissing (by decide)

/-- The errors of a text, byte by byte. -/
def errorsOf : Window → Bytes → Bytes
  | _, [] => []
  | w, b :: bytes => w.error b :: errorsOf (w.next b) bytes

theorem anyBitsSet_errorsOf (w : Window) (bytes : Bytes) :
    anyBitsSet (w.errorsOf bytes) = false ↔ w.Clean bytes := by
  induction bytes generalizing w with
  | nil => simp [errorsOf, anyBitsSet, Clean]
  | cons b bytes ih =>
    have htail := ih (w.next b)
    simp only [anyBitsSet] at htail ⊢
    simp [errorsOf, Clean, htail]

theorem length_errorsOf (w : Window) (bytes : Bytes) :
    (w.errorsOf bytes).length = bytes.length := by
  induction bytes generalizing w with
  | nil => rfl
  | cons b bytes ih => simp [errorsOf, ih]

/-- A window shows the last three bytes. -/
theorem after_append_three (w : Window) (bytes : Bytes) (c3 c2 c1 : UInt8) :
    w.after (bytes ++ [c3, c2, c1]) = ⟨c3, c2, c1⟩ := by
  simp [after, next]

end Window

/-! ## Vectors and windows -/

theorem prev_append (pre last chunk : Bytes) :
    prev last.length chunk (pre ++ last) = (last ++ chunk).take chunk.length := by
  have hdrop : (pre ++ last).length - last.length = pre.length := by simp
  rw [prev, hdrop, List.append_assoc, List.drop_left]

/-- **A vector is checked as its bytes are**, one by one. -/
theorem checkMultibyteLengths_eq (pre chunk : Bytes) (c3 c2 c1 : UInt8) :
    checkMultibyteLengths chunk (pre ++ [c3, c2, c1])
        (List.zipWith checkSpecialCases chunk (prev 1 chunk (pre ++ [c3, c2, c1]))) =
      (⟨c3, c2, c1⟩ : Window).errorsOf chunk := by
  have h3 := prev_append pre [c3, c2, c1] chunk
  have h2 := prev_append (pre ++ [c3]) [c2, c1] chunk
  have h1 := prev_append (pre ++ [c3, c2]) [c1] chunk
  simp only [List.append_assoc, List.cons_append, List.nil_append, List.length_cons,
    List.length_nil] at h1 h2 h3
  rw [checkMultibyteLengths, h1, h2, h3]
  clear h1 h2 h3
  -- the last three bytes of the vector before are all that is looked at
  induction chunk generalizing c3 c2 c1 with
  | nil => rfl
  | cons b chunk ih =>
    have htail := ih c2 c1 b
    simp only [List.length_cons, List.take_succ_cons, List.zipWith_cons_cons, List.map_cons]
      at htail ⊢
    rw [htail]
    rfl

theorem anyBitsSet_or {x y : Bytes} (h : x.length = y.length) :
    anyBitsSet (List.zipWith (· ||| ·) x y) = (anyBitsSet x || anyBitsSet y) := by
  induction x generalizing y with
  | nil => cases y <;> simp_all [anyBitsSet]
  | cons a x ih =>
    cases y with
    | nil => simp at h
    | cons b y =>
      have htail := ih (Nat.succ.inj h)
      have hor : (a ||| b != 0) = (a != 0 || b != 0) := by
        rw [Bool.eq_iff_iff]
        simp [UInt8.or_eq_zero_iff, imp_iff_not_or]
      simp only [anyBitsSet] at htail ⊢
      simp only [List.zipWith_cons_cons, List.any_cons, htail, hor]
      cases a != 0 <;> cases b != 0 <;> simp

theorem anyBitsSet_zeros (n : ℕ) : anyBitsSet (List.replicate n 0) = false := by
  simp [anyBitsSet]

/-- A vector has three last bytes. -/
theorem exists_append_three {bytes : Bytes} (h : 3 ≤ bytes.length) :
    ∃ pre c3 c2 c1, bytes = pre ++ [c3, c2, c1] := by
  have hlast : (bytes.drop (bytes.length - 3)).length = 3 := by
    rw [List.length_drop]
    omega
  obtain ⟨c3, c2, c1, hthree⟩ := List.length_eq_three.mp hlast
  refine ⟨bytes.take (bytes.length - 3), c3, c2, c1, ?_⟩
  rw [← hthree, List.take_append_drop]

/-- What came before a vector does not matter behind it. -/
theorem Window.after_vector (w w' : Window) {chunk : Bytes} (h : 3 ≤ chunk.length) :
    w.after chunk = w'.after chunk := by
  obtain ⟨pre, c3, c2, c1, rfl⟩ := exists_append_three h
  rw [after_append_three, after_append_three]

theorem Window.after_append (w : Window) (bytes bytes' : Bytes) :
    w.after (bytes ++ bytes') = (w.after bytes).after bytes' := List.foldl_append

theorem Window.clean_append (w : Window) (bytes bytes' : Bytes) :
    w.Clean (bytes ++ bytes') ↔ w.Clean bytes ∧ (w.after bytes).Clean bytes' := by
  induction bytes generalizing w with
  | nil => simp [Clean, after]
  | cons b bytes ih =>
    have htail := ih (w.next b)
    simp only [List.cons_append, Clean, htail, and_assoc]
    rfl

/-- **An incomplete character** shows in the last three bytes of a vector. -/
theorem anyBitsSet_isIncomplete {K : Kernel} (hK : K.Lawful) {chunk : Bytes}
    (h : chunk.length = K.simdSize) :
    anyBitsSet (isIncomplete K chunk) = false ↔ (Window.start.after chunk).Complete := by
  have h3 : 3 ≤ chunk.length := by
    rw [h]
    exact hK.simdSize.1
  obtain ⟨pre, c3, c2, c1, rfl⟩ := exists_append_three h3
  have hpre : pre.length = (List.replicate (K.simdSize - 3) (0xff : UInt8)).length := by
    simp only [List.length_append, List.length_cons, List.length_nil] at h
    simp [← h]
  have hset : ∀ a b : UInt8, (K.gtBits a b != 0) = decide (b.toNat < a.toNat) := by
    intro a b
    rw [Bool.eq_iff_iff, bne_iff_ne, decide_eq_true_iff, ← UInt8.lt_iff_toNat_lt]
    exact hK.gtBits a b
  -- no byte is larger than `0xff`
  have hmax : ∀ n, (List.zipWith K.gtBits pre (List.replicate n 0xff)).any (· != 0) = false := by
    clear hpre h h3
    induction pre with
    | nil => simp
    | cons a pre ih =>
      intro n
      cases n with
      | zero => simp
      | succ n =>
        have ha : ¬ (0xff : UInt8).toNat < a.toNat := Nat.not_lt.mpr (Nat.le_of_lt_succ a.toNat_lt)
        rw [List.replicate_succ, List.zipWith_cons_cons, List.any_cons, hset, decide_eq_false ha,
          Bool.false_or]
        exact ih n
  have hbounds : (0xf0 - 1 : UInt8).toNat = 0xef ∧ (0xe0 - 1 : UInt8).toNat = 0xdf ∧
      (0xc0 - 1 : UInt8).toNat = 0xbf := by decide
  rw [Window.after_append_three, isIncomplete, maxValue, List.zipWith_append hpre, anyBitsSet,
    List.any_append, hmax]
  simp only [List.zipWith_cons_cons, List.zipWith_nil_left, List.any_cons, List.any_nil, hset,
    hbounds, Bool.false_or, Bool.or_false, Bool.or_eq_false_iff, decide_eq_false_iff_not,
    Window.Complete]
  omega

/-! ## The checker -/

theorem chunksOf_spec {size n : ℕ} {bytes : Bytes} (h : bytes.length = size * n) :
    (chunksOf size n bytes).flatten = bytes ∧ ∀ chunk ∈ chunksOf size n bytes,
      chunk.length = size := by
  induction n generalizing bytes with
  | zero => simp_all [chunksOf]
  | succ n ih =>
    have hrest : (bytes.drop size).length = size * n := by
      rw [List.length_drop, h, Nat.mul_succ, Nat.add_sub_cancel]
    obtain ⟨hflatten, hlength⟩ := ih hrest
    constructor
    · rw [chunksOf, List.flatten_cons, hflatten, List.take_append_drop]
    · intro chunk hchunk
      rcases List.mem_cons.mp hchunk with rfl | hchunk
      · rw [List.length_take, h, Nat.mul_succ]
        omega
      · exact hlength chunk hchunk

namespace Utf8Checker

variable {K : Kernel}

/-- The vector that is looked at, and what was found so far. -/
theorem anyBitsSet_checkUtf8Bytes {self : Utf8Checker} {input prevInput : Bytes}
    (hsize : self.error.length = input.length) (hprev : 3 ≤ prevInput.length) :
    (self.checkUtf8Bytes input prevInput).error.length = input.length ∧
      (anyBitsSet (self.checkUtf8Bytes input prevInput).error = false ↔
        anyBitsSet self.error = false ∧ (Window.start.after prevInput).Clean input) := by
  obtain ⟨pre, c3, c2, c1, rfl⟩ := exists_append_three hprev
  have herror : (self.checkUtf8Bytes input (pre ++ [c3, c2, c1])).error =
      List.zipWith (· ||| ·) self.error ((⟨c3, c2, c1⟩ : Window).errorsOf input) := by
    rw [← checkMultibyteLengths_eq pre]
    rfl
  have hlength : self.error.length = ((⟨c3, c2, c1⟩ : Window).errorsOf input).length := by
    rw [Window.length_errorsOf, hsize]
  rw [herror, Window.after_append_three, anyBitsSet_or hlength, Bool.or_eq_false_iff,
    Window.anyBitsSet_errorsOf]
  refine ⟨?_, Iff.rfl⟩
  rw [List.length_zipWith, ← hlength, Nat.min_self, hsize]

/-- All vectors of a block. -/
theorem anyBitsSet_checkChunks {size : ℕ} (hsize : 3 ≤ size) {self : Utf8Checker}
    {prevInput : Bytes} {chunks : List Bytes} (herror : self.error.length = size)
    (hprev : prevInput.length = size) (hchunks : ∀ chunk ∈ chunks, chunk.length = size) :
    (self.checkChunks prevInput chunks).error.length = size ∧
      (anyBitsSet (self.checkChunks prevInput chunks).error = false ↔
        anyBitsSet self.error = false ∧ (Window.start.after prevInput).Clean chunks.flatten) ∧
      Window.start.after (chunks.getLastD prevInput) =
        (Window.start.after prevInput).after chunks.flatten := by
  -- on the vectors: what came before the last one is forgotten, and only its errors stay
  induction chunks generalizing self prevInput with
  | nil => exact ⟨herror, by simp [checkChunks, Window.Clean], rfl⟩
  | cons chunk chunks ih =>
    have hchunk := hchunks chunk List.mem_cons_self
    obtain ⟨hlength, hany⟩ := @anyBitsSet_checkUtf8Bytes self chunk prevInput
      (herror.trans hchunk.symm) (hprev ▸ hsize)
    obtain ⟨hlength', hany', hlast⟩ := @ih (self.checkUtf8Bytes chunk prevInput) chunk
      (hlength.trans hchunk) hchunk (fun c hc => hchunks c (List.mem_cons_of_mem _ hc))
    have hwindow : Window.start.after chunk = (Window.start.after prevInput).after chunk :=
      Window.after_vector _ _ (hchunk ▸ hsize)
    rw [checkChunks]
    refine ⟨hlength', ?_, ?_⟩
    · rw [hany', hany, List.flatten_cons, Window.clean_append, and_assoc, hwindow]
    · rw [List.flatten_cons, Window.after_append, ← hwindow, ← hlast, List.getLastD_cons]

/-- What the checker knows where a reader would be. -/
def Knows (self : Utf8Checker) : Option Position → Prop
  | some p => anyBitsSet self.error = false ∧ (Window.start.after self.prevInputBlock).At p ∧
      (anyBitsSet self.prevIncomplete = false ↔ p = betweenChars)
  | none => anyBitsSet self.error = true

/-- The checker after a text. -/
structure Represents (K : Kernel) (self : Utf8Checker) (text : Bytes) : Prop where
  errorSize : self.error.length = K.simdSize
  prevSize : self.prevInputBlock.length = K.simdSize
  incompleteSize : self.prevIncomplete.length = K.simdSize
  knows : self.Knows (betweenChars.decode text)

theorem start_represents (hK : K.Lawful) : (start K).Represents K [] := by
  refine ⟨List.length_replicate, List.length_replicate, List.length_replicate,
    anyBitsSet_zeros _, ?_, ?_⟩
  · have hzeros : Window.start.after (List.replicate K.simdSize 0) = Window.start := by
      obtain ⟨n, hn⟩ := Nat.exists_eq_add_of_le hK.simdSize.1
      rw [hn, Nat.add_comm, List.replicate_add]
      exact Window.after_append_three _ _ 0 0 0
    show (Window.start.after (List.replicate K.simdSize 0)).At betweenChars
    rw [hzeros]
    exact Window.start_at
  · simp [start, anyBitsSet_zeros]

/-- An incomplete character becomes an error. -/
theorem Represents.anyBitsSet_addError {self : Utf8Checker} {text : Bytes}
    (h : self.Represents K text) :
    anyBitsSet (self.addError self.prevIncomplete).error =
      (anyBitsSet self.error || anyBitsSet self.prevIncomplete) := by
  obtain ⟨herror, -, hincomplete, -⟩ := h
  exact anyBitsSet_or (herror.trans hincomplete.symm)

/-- A block of ASCII is not looked at: it only must not come inside of a character. -/
theorem Represents.next_ascii {self : Utf8Checker} {text bytes : Bytes}
    (h : self.Represents K text) (hne : bytes ≠ []) (hbytes : ∀ b ∈ bytes, b.toNat < 0x80) :
    (self.addError self.prevIncomplete).Represents K (text ++ bytes) := by
  have hor := h.anyBitsSet_addError
  obtain ⟨herror, hprev, hincomplete, hknows⟩ := h
  refine ⟨?_, hprev, hincomplete, ?_⟩
  · rw [addError, List.length_zipWith, herror, hincomplete, Nat.min_self]
  rw [decode_append]
  cases hp : betweenChars.decode text with
  -- an error stays one
  | none =>
    rw [hp] at hknows
    have hset : anyBitsSet self.error = true := hknows
    show anyBitsSet (self.addError self.prevIncomplete).error = true
    rw [hor, hset, Bool.true_or]
  | some p =>
    rw [hp] at hknows
    obtain ⟨hnone, hat, hcomplete⟩ := hknows
    by_cases hbetween : p = betweenChars
    · subst hbetween
      show (self.addError self.prevIncomplete).Knows (betweenChars.decode bytes)
      rw [decode_ascii hbytes]
      -- the old vectors stay: they say that no character is open, which is still so
      refine ⟨?_, hat, hcomplete⟩
      rw [hor, hnone, hcomplete.mpr rfl]
      rfl
    -- the first byte of the block ends the character too early
    · obtain ⟨b, rest, rfl⟩ := List.exists_cons_of_ne_nil hne
      show (self.addError self.prevIncomplete).Knows (p.decode (b :: rest))
      rw [decode_cons, hat.step_ascii hbetween (hbytes b List.mem_cons_self)]
      show anyBitsSet (self.addError self.prevIncomplete).error = true
      rw [hor, Bool.eq_true_of_not_eq_false (mt hcomplete.mp hbetween), Bool.or_true]

/-- Any other block is checked vector by vector. -/
theorem Represents.next_chunks (hK : K.Lawful) {self : Utf8Checker} {text last : Bytes}
    (h : self.Represents K text) {chunks : List Bytes}
    (hchunks : ∀ chunk ∈ chunks, chunk.length = K.simdSize)
    (hlast : chunks.getLastD self.prevInputBlock = last) (hsize : last.length = K.simdSize) :
    Represents K { self.checkChunks self.prevInputBlock chunks with
      prevIncomplete := isIncomplete K last
      prevInputBlock := last } (text ++ chunks.flatten) := by
  obtain ⟨herror, hprev, -, hknows⟩ := h
  obtain ⟨hlength, hany, hafter⟩ := anyBitsSet_checkChunks hK.simdSize.1 herror hprev hchunks
  rw [hlast] at hafter
  refine ⟨hlength, hsize, ?_, ?_⟩
  · show (List.zipWith K.gtBits _ (maxValue K.simdSize)).length = K.simdSize
    rw [List.length_zipWith, hsize, length_maxValue hK.simdSize.1, Nat.min_self]
  rw [decode_append]
  cases hp : betweenChars.decode text with
  | none =>
    rw [hp] at hknows
    have hset : anyBitsSet self.error = true := hknows
    apply Bool.eq_true_of_not_eq_false
    intro hnone
    rw [(hany.mp hnone).1] at hset
    cases hset
  | some p =>
    rw [hp] at hknows
    obtain ⟨hnone, hat, -⟩ := hknows
    show Knows _ (p.decode chunks.flatten)
    obtain ⟨hclean, q, hq, hat'⟩ | ⟨hclean, hq⟩ := hat.clean_iff chunks.flatten
    · rw [hq]
      rw [← hafter] at hat'
      exact ⟨hany.mpr ⟨hnone, hclean⟩, hat',
        (anyBitsSet_isIncomplete hK hsize).trans hat'.complete_iff⟩
    · rw [hq]
      apply Bool.eq_true_of_not_eq_false
      exact fun herr => hclean (hany.mp herr).2

/-- **A block is read on**, also where the checker skips it. -/
theorem Represents.next (hK : K.Lawful) {self : Utf8Checker} {text : Bytes}
    (h : self.Represents K text) (block : Simd8x64) :
    (self.checkNextInput K block).Represents K (text ++ block.toList) := by
  have hne : block.toList ≠ [] := by
    intro hnil
    have hlength := block.length_toList
    rw [hnil] at hlength
    exact absurd hlength (by decide)
  unfold checkNextInput
  split
  case isTrue hascii =>
    exact h.next_ascii hne fun b hb =>
      UInt8.lt_iff_toNat_lt.mp (of_decide_eq_true (List.all_eq_true.mp hascii b hb))
  case isFalse =>
    have hblock : block.toList.length = K.simdSize * (64 / K.simdSize) := by
      rw [Nat.mul_div_cancel' hK.simdSize.2, Vector.length_toList]
    obtain ⟨hflatten, hchunks⟩ := chunksOf_spec hblock
    generalize hcs : chunksOf K.simdSize (64 / K.simdSize) block.toList = cs at hflatten hchunks ⊢
    cases cs with
    | nil => exact absurd hflatten.symm hne
    | cons chunk chunks =>
      rw [← hflatten]
      have hlast : (chunk :: chunks).getLastD self.prevInputBlock =
          (chunk :: chunks).getLastD [] := by
        rw [List.getLastD_cons, List.getLastD_cons]
      have hmem : (chunk :: chunks).getLastD [] ∈ chunk :: chunks := by
        rw [List.getLastD_cons]
        exact List.getLastD_mem_cons ..
      exact h.next_chunks hK hchunks hlast (hchunks _ hmem)

/-- **The checker accepts UTF-8**, and nothing else. -/
theorem Represents.errors_checkEof {self : Utf8Checker} {text : Bytes}
    (h : self.Represents K text) :
    self.checkEof.errors = if IsUtf8 text then .ok () else .error .utf8Error := by
  have hor := h.anyBitsSet_addError
  obtain ⟨-, -, -, hknows⟩ := h
  have hvalid := isUtf8_iff text
  rw [errors, checkEof, hor]
  cases hp : betweenChars.decode text with
  | none =>
    rw [hp] at hknows hvalid
    have hset : anyBitsSet self.error = true := hknows
    have hinvalid : ¬ IsUtf8 text := by simp [hvalid]
    rw [if_neg hinvalid, hset]
    rfl
  | some p =>
    rw [hp, Option.some.injEq] at hvalid
    rw [hp] at hknows
    obtain ⟨hnone, -, hcomplete⟩ := hknows
    rw [hnone, Bool.false_or]
    by_cases hbetween : p = betweenChars
    · rw [if_pos (hvalid.mpr hbetween), hcomplete.mpr hbetween]
      rfl
    · rw [if_neg (mt hvalid.mp hbetween),
        if_pos (Bool.eq_true_of_not_eq_false (mt hcomplete.mp hbetween))]

end Utf8Checker

/-- Padding with ASCII makes no text valid, nor invalid. -/
theorem isUtf8_append_ascii (text : Bytes) {padding : Bytes}
    (h : ∀ b ∈ padding, b.toNat < 0x80) : IsUtf8 (text ++ padding) ↔ IsUtf8 text := by
  rw [isUtf8_iff, isUtf8_iff, decode_append]
  cases padding with
  | nil =>
    cases betweenChars.decode text <;> rfl
  | cons b padding =>
    obtain ⟨-, p, hp, hat⟩ | ⟨-, hnone⟩ := Window.start_at.clean_iff text
    · rw [hp, Option.bind_some]
      by_cases hbetween : p = betweenChars
      · rw [hbetween, decode_ascii h]
      · rw [decode_cons, hat.step_ascii hbetween (h b List.mem_cons_self)]
        simp [hbetween]
    · rw [hnone]
      rfl

/-! ## Cutting off a character -/

/-- `trim_partial_utf8`: the length without the last character, if that is cut off. -/
def trimPartialUtf8 (buf : Bytes) : ℕ :=
  let len := buf.length
  if len < 3 then
    match len with
    | 2 =>
      if 0xc0 ≤ buf.getD (len - 1) 0 then len - 1
      else if 0xe0 ≤ buf.getD (len - 2) 0 then len - 2
      else len
    | 1 => if 0xc0 ≤ buf.getD (len - 1) 0 then len - 1 else len
    | _ => len
  else if 0xc0 ≤ buf.getD (len - 1) 0 then len - 1
  else if 0xe0 ≤ buf.getD (len - 2) 0 then len - 2
  else if 0xf0 ≤ buf.getD (len - 3) 0 then len - 3
  else len

section Trim

variable {buf full part : Bytes}

theorem lead_mono (b : UInt8) : (0xe0 ≤ b → 0xc0 ≤ b) ∧ (0xf0 ≤ b → 0xe0 ≤ b) := by
  revert b
  apply forall_byte
  decide +kernel

/-- The short texts need no cases of their own. -/
theorem trimPartialUtf8_eq (buf : Bytes) :
    trimPartialUtf8 buf =
      if 0xc0 ≤ buf.getD (buf.length - 1) 0 then buf.length - 1
      else if 0xe0 ≤ buf.getD (buf.length - 2) 0 then buf.length - 2
      else if 0xf0 ≤ buf.getD (buf.length - 3) 0 then buf.length - 3
      else buf.length := by
  unfold trimPartialUtf8
  -- the byte that the short text lacks is read as the one before, which has been looked at
  rcases buf with _ | ⟨a, _ | ⟨b, _ | ⟨c, rest⟩⟩⟩
  · rfl
  · show (if 0xc0 ≤ a then 0 else 1) =
      if 0xc0 ≤ a then 0 else if 0xe0 ≤ a then 0 else if 0xf0 ≤ a then 0 else 1
    split
    case isTrue => rfl
    case isFalse hlt =>
      have h2 := mt (lead_mono a).1 hlt
      rw [if_neg h2, if_neg (mt (lead_mono a).2 h2)]
  · show (if 0xc0 ≤ b then 1 else if 0xe0 ≤ a then 0 else 2) =
      if 0xc0 ≤ b then 1 else if 0xe0 ≤ a then 0 else if 0xf0 ≤ a then 0 else 2
    split
    case isTrue => rfl
    case isFalse =>
      split
      case isTrue => rfl
      case isFalse hlt => rw [if_neg (mt (lead_mono a).2 hlt)]
  · dsimp only [List.length_cons]
    rw [if_neg (by omega)]

/-- At most three bytes go. -/
theorem trimPartialUtf8_le (buf : Bytes) :
    trimPartialUtf8 buf ≤ buf.length ∧ buf.length ≤ trimPartialUtf8 buf + 3 := by
  rw [trimPartialUtf8_eq]
  split_ifs <;> omega

/-- A byte of a text, from the end. -/
theorem getD_of_isUtf8 (h : IsUtf8 buf) :
    ¬ 0xc0 ≤ buf.getD (buf.length - 1) 0 ∧ ¬ 0xe0 ≤ buf.getD (buf.length - 2) 0 ∧
      ¬ 0xf0 ≤ buf.getD (buf.length - 3) 0 := by
  have hbyte : ∀ i (hi : i < buf.length),
      (0xc0 ≤ buf[i].toNat → 1 ≤ buf.length - (i + 1)) ∧
      (0xe0 ≤ buf[i].toNat → 2 ≤ buf.length - (i + 1)) ∧
      (0xf0 ≤ buf[i].toNat → 3 ≤ buf.length - (i + 1)) := by
    intro i hi
    rw [← List.length_drop]
    have hsplit : IsUtf8 (buf.take i ++ buf[i] :: buf.drop (i + 1)) := by
      rwa [List.getElem_cons_drop, List.take_append_drop]
    exact hsplit.le_length_of_lead
  rcases Nat.eq_zero_or_pos buf.length with hzero | hpos
  · rw [List.length_eq_zero_iff.mp hzero]
    decide
  · have h1 := (hbyte (buf.length - 1) (by omega)).1
    have h2 := (hbyte (buf.length - 2) (by omega)).2.1
    have h3 := (hbyte (buf.length - 3) (by omega)).2.2
    rw [List.getD_eq_getElem _ _ (by omega), List.getD_eq_getElem _ _ (by omega),
      List.getD_eq_getElem _ _ (by omega)]
    refine ⟨?_, ?_, ?_⟩
    · intro hge
      have hrest := h1 (UInt8.le_iff_toNat_le.mp hge)
      omega
    · intro hge
      have hrest := h2 (UInt8.le_iff_toNat_le.mp hge)
      omega
    · intro hge
      have hrest := h3 (UInt8.le_iff_toNat_le.mp hge)
      omega

/-- A text stays as it is. -/
theorem trimPartialUtf8_of_isUtf8 (h : IsUtf8 buf) : trimPartialUtf8 buf = buf.length := by
  obtain ⟨h1, h2, h3⟩ := getD_of_isUtf8 h
  rw [trimPartialUtf8_eq, if_neg h1, if_neg h2, if_neg h3]

/-- A part of a character is found by its first byte. -/
theorem trimPartialUtf8_append (full : Bytes) {l c1 c2 : UInt8} (h1 : ¬ 0xc0 ≤ c1)
    (h2 : ¬ 0xc0 ≤ c2) :
    (0xc0 ≤ l → trimPartialUtf8 (full ++ [l]) = full.length) ∧
      (0xe0 ≤ l → trimPartialUtf8 (full ++ [l, c1]) = full.length) ∧
      (0xf0 ≤ l → trimPartialUtf8 (full ++ [l, c1, c2]) = full.length) := by
  refine ⟨?_, ?_, ?_⟩
  · intro hl
    simp [trimPartialUtf8_eq, hl]
  · intro hl
    simp [trimPartialUtf8_eq, hl, h1]
  · intro hl
    simp [trimPartialUtf8_eq, hl, h2, UInt8.not_le.mp (mt (lead_mono c1).1 h1)]

/-- A beginning of a character that is not all of it: its first byte and some of the others. -/
theorem eq_nil_or_take_of_isPrefix {l : UInt8} {conts : Bytes} (h : part <+: l :: conts)
    (hne : part ≠ l :: conts) : part = [] ∨ ∃ j < conts.length, part = l :: conts.take j := by
  rcases List.prefix_cons_iff.mp h with hnil | ⟨t, rfl, ht⟩
  · exact .inl hnil
  · have htake := List.prefix_iff_eq_take.mp ht
    refine .inr ⟨t.length, ?_, by rw [← htake]⟩
    by_contra hge
    rw [List.take_of_length_le (Nat.not_lt.mp hge)] at htake
    exact hne (by rw [htake])

/-- The bits of a character are added to those of its first byte. -/
theorem le_ofNat_add {n k : ℕ} (h : n + k < 256) : UInt8.ofNat k ≤ UInt8.ofNat (n + k) := by
  rw [UInt8.le_iff_toNat_le, UInt8.toNat_ofNat', UInt8.toNat_ofNat', Nat.mod_eq_of_lt h,
    Nat.mod_eq_of_lt (by omega)]
  omega

/-- A continuation byte begins no character. -/
theorem not_le_ofNat_continuation (n : ℕ) : ¬ 0xc0 ≤ UInt8.ofNat (n % 64 + 0x80) := by
  intro hge
  rw [UInt8.le_iff_toNat_le, toNat_ofNat_add (by omega)] at hge
  have hle : 0xc0 ≤ n % 64 + 0x80 := hge
  omega

/-- **A part of a character is cut off**, wherever it breaks off. -/
theorem trimPartialUtf8_append_part (hfull : IsUtf8 full) {c : Char}
    (hpart : part <+: String.utf8EncodeChar c) (hproper : part ≠ String.utf8EncodeChar c) :
    trimPartialUtf8 (full ++ part) = full.length := by
  have hcont := not_le_ofNat_continuation
  have hnil : trimPartialUtf8 (full ++ []) = full.length := by
    rw [List.append_nil, trimPartialUtf8_of_isUtf8 hfull]
  -- one case for each length of a character, and in it one for each place to break off
  rcases Nat.lt_or_ge c.toNat 0x80 with h1 | h80
  · rw [utf8EncodeChar_one h1] at hpart hproper
    obtain rfl | ⟨j, hj, -⟩ := eq_nil_or_take_of_isPrefix hpart hproper
    · exact hnil
    · exact absurd hj (Nat.not_lt_zero j)
  rcases Nat.lt_or_ge c.toNat 0x800 with h2 | h800
  · rw [utf8EncodeChar_two h80 h2] at hpart hproper
    obtain rfl | ⟨j, hj, rfl⟩ := eq_nil_or_take_of_isPrefix hpart hproper
    · exact hnil
    · have hl := @le_ofNat_add (c.toNat / 64 % 32) 0xc0 (by omega)
      obtain rfl := Nat.lt_one_iff.mp hj
      exact (trimPartialUtf8_append full (hcont 0) (hcont 0)).1 hl
  rcases Nat.lt_or_ge c.toNat 0x10000 with h3 | h10000
  · rw [utf8EncodeChar_three h800 h3] at hpart hproper
    obtain rfl | ⟨j, hj, rfl⟩ := eq_nil_or_take_of_isPrefix hpart hproper
    · exact hnil
    · have hl := @le_ofNat_add (c.toNat / 4096 % 16) 0xe0 (by omega)
      match j, hj with
      | 0, _ => exact (trimPartialUtf8_append full (hcont 0) (hcont 0)).1 ((lead_mono _).1 hl)
      | 1, _ => exact (trimPartialUtf8_append full (hcont _) (hcont 0)).2.1 hl
  · rw [utf8EncodeChar_four h10000] at hpart hproper
    obtain rfl | ⟨j, hj, rfl⟩ := eq_nil_or_take_of_isPrefix hpart hproper
    · exact hnil
    · have hl := @le_ofNat_add (c.toNat / 262144 % 8) 0xf0 (by omega)
      match j, hj with
      | 0, _ =>
        exact (trimPartialUtf8_append full (hcont 0) (hcont 0)).1
          ((lead_mono _).1 ((lead_mono _).2 hl))
      | 1, _ => exact (trimPartialUtf8_append full (hcont _) (hcont 0)).2.1 ((lead_mono _).2 hl)
      | 2, _ => exact (trimPartialUtf8_append full (hcont _) (hcont _)).2.2 hl

/-- **Of a text that was cut off**, the characters that are complete remain. -/
theorem isUtf8_take_trimPartialUtf8 {whole : Bytes} (hcut : buf <+: whole) (h : IsUtf8 whole) :
    IsUtf8 (buf.take (trimPartialUtf8 buf)) := by
  obtain ⟨full, part, c, rfl, hfull, hpart, hproper⟩ := exists_part_of_isPrefix hcut h
  rwa [trimPartialUtf8_append_part hfull hpart hproper, List.take_left]

end Trim

end Dataprint.Stage1
