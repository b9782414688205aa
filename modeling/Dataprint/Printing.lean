import Dataprint.Fingerprint
import Dataprint.Foundations.Numerals

/-!
# The Printed Fingerprint

`operator<<` for `__uint128_t` (`src/processor.cpp`) writes the digits into a buffer of 33
characters, from its end, and prints the text that starts where it has come to.

- `writeHex_spec` — a value of at most as many digits as there is space is written, and the buffer
  then holds what `hexLoop` gives;
- `putU128_eq` — so every value is printed, as `showU128` says;
- `toList_showU128` — which is the hexadecimal numeral of the value;
- `printed_determines` — the printed line tells the value and the name of the file.
-/

namespace Dataprint

open Foundations

/-! ## The buffer -/

/-- `char buf[33]`, with the pointer `p` as an offset. -/
structure Buffer where
  buf : Vector Char 33
  p : ℕ
  p_le : p ≤ 33

namespace Buffer

/-- `char* p = buf + sizeof(buf)`, in a buffer of any content. -/
def atEnd (buf : Vector Char 33) : Buffer := ⟨buf, 33, le_rfl⟩

/-- `*--p = c`.  There is no result for a write before the start of the buffer. -/
def write (b : Buffer) (c : Char) : Option Buffer :=
  if h : 0 < b.p then
    have hlt : b.p - 1 < 33 := by
      have hle := b.p_le
      omega
    some { buf := b.buf.set (b.p - 1) c hlt, p := b.p - 1, p_le := hlt.le }
  else
    none

/-- The characters from the pointer to the end of the buffer. -/
def rest (b : Buffer) : List Char := b.buf.toList.drop b.p

/-- `os << p`: the characters from the pointer to the terminator.  There is no result if the buffer
has none. -/
def cString (b : Buffer) : Option String :=
  if '\x00' ∈ b.rest then some (String.ofList (b.rest.takeWhile (· != '\x00'))) else none

theorem rest_atEnd (buf : Vector Char 33) : (atEnd buf).rest = [] :=
  List.drop_eq_nil_of_le (Vector.length_toList).le

/-- With space left, a character comes before the others. -/
theorem write_spec {b : Buffer} (h : 0 < b.p) (c : Char) :
    ∃ b', b.write c = some b' ∧ b'.p + 1 = b.p ∧ b'.rest = c :: b.rest := by
  have hlt : b.p - 1 < 33 := by
    have hle := b.p_le
    omega
  have hnext : b.p - 1 + 1 = b.p := Nat.sub_add_cancel h
  refine ⟨⟨b.buf.set (b.p - 1) c hlt, b.p - 1, hlt.le⟩, dif_pos h, hnext, ?_⟩
  have hlength : b.p - 1 < (b.buf.toList.set (b.p - 1) c).length := by
    rwa [List.length_set, Vector.length_toList]
  rw [rest, rest, Vector.toList_set, List.drop_eq_getElem_cons hlength, List.getElem_set_self,
    hnext, List.drop_set_of_lt (by omega)]

/-- A text behind which a terminator stands is printed. -/
theorem cString_of_rest {b : Buffer} {text : List Char} (h : b.rest = text ++ ['\x00'])
    (htext : '\x00' ∉ text) : b.cString = some (String.ofList text) := by
  have hall : ∀ c ∈ text, (c != '\x00') = true := by
    intro c hc
    exact bne_iff_ne.mpr fun heq => htext (heq ▸ hc)
  have hmem : '\x00' ∈ b.rest := by
    rw [h]
    exact List.mem_append_right _ List.mem_cons_self
  rw [cString, if_pos hmem, h, List.takeWhile_append_of_pos hall,
    List.takeWhile_cons_of_neg (by decide), List.append_nil]

end Buffer

/-! ## The loop -/

/-- The loop of `operator<<`. -/
def writeHex (value : U128) (b : Buffer) : Option Buffer :=
  if _h : value > 0 then do
    let b ← b.write (hexDigit (value &&& 0xF).toNat)
    writeHex (value >>> 4) b
  else
    some b
termination_by value.toNat
decreasing_by
  have hpos : 0 < value.toNat := by simpa [BitVec.lt_def] using _h
  rw [BitVec.toNat_ushiftRight, Nat.shiftRight_eq_div_pow]
  exact Nat.div_lt_self hpos (by decide)

/-- `operator<<`: the text that is printed, whatever the buffer holds at first.  There is none if it
is written before the start of the buffer or read behind its end. -/
def putU128 (buf : Vector Char 33) (value : U128) : Option String :=
  if value = 0 then some "0"
  else do
    let b ← (Buffer.atEnd buf).write '\x00'
    let b ← writeHex value b
    b.cString

theorem toNat_shiftRight_four (value : U128) : (value >>> 4).toNat = value.toNat / 16 := by
  rw [BitVec.toNat_ushiftRight, Nat.shiftRight_eq_div_pow]

theorem toNat_and_nibble (value : U128) : (value &&& 0xF).toNat = value.toNat % 16 := by
  rw [BitVec.toNat_and]
  exact Nat.and_two_pow_sub_one_eq_mod value.toNat 4

theorem gt_zero_iff (value : U128) : value > 0 ↔ 0 < value.toNat := by
  rw [gt_iff_lt, BitVec.lt_def]
  rfl

/-- **The loop stays inside the buffer.**  With space for the digits, it comes to its end, and the
digits stand before what was there. -/
theorem writeHex_spec (value : U128) (b : Buffer) (hspace : value.toNat < 16 ^ b.p) :
    ∃ b', writeHex value b = some b' ∧ b'.rest = hexLoop value b.rest := by
  induction hn : value.toNat using Nat.strongRecOn generalizing value b with
  | ind n ih =>
    subst hn
    rw [writeHex, hexLoop]
    by_cases hpos : value > 0
    · rw [dif_pos hpos, dif_pos hpos]
      have hvalue := (gt_zero_iff value).mp hpos
      -- a digit is left, and so is space for it
      have hp : 0 < b.p := by
        by_contra hzero
        rw [Nat.eq_zero_of_not_pos hzero, Nat.pow_zero] at hspace
        omega
      obtain ⟨b₁, hwrite, hp₁, hrest⟩ := Buffer.write_spec hp (hexDigit (value &&& 0xF).toNat)
      have hspace₁ : (value >>> 4).toNat < 16 ^ b₁.p := by
        rw [toNat_shiftRight_four]
        apply Nat.div_lt_of_lt_mul
        rwa [Nat.mul_comm, ← Nat.pow_add_one, hp₁]
      have hlt : (value >>> 4).toNat < value.toNat := by
        rw [toNat_shiftRight_four]
        exact Nat.div_lt_self hvalue (by omega)
      obtain ⟨b', hloop, hrest'⟩ := ih _ hlt (value >>> 4) b₁ hspace₁ rfl
      refine ⟨b', ?_, by rw [hrest', hrest]⟩
      rw [hwrite]
      exact hloop
    · rw [dif_neg hpos, dif_neg hpos]
      exact ⟨b, rfl, rfl⟩

/-! ## The numeral -/

theorem hexDigit_eq_digitChar : ∀ d < 16, hexDigit d = d.digitChar := by decide

/-- The loop puts the numeral of a value before what is there. -/
theorem hexLoop_eq (value : U128) (hvalue : 0 < value.toNat) (p : List Char) :
    hexLoop value p = Nat.toDigits 16 value.toNat ++ p := by
  induction hn : value.toNat using Nat.strongRecOn generalizing value p with
  | ind n ih =>
    subst hn
    have hdigit : hexDigit (value &&& 0xF).toNat = (value.toNat % 16).digitChar := by
      rw [toNat_and_nibble]
      exact hexDigit_eq_digitChar _ (Nat.mod_lt _ (by omega))
    rw [hexLoop, dif_pos ((gt_zero_iff value).mpr hvalue), hdigit,
      Nat.toDigits_eq_if (b := 16) (by omega)]
    split
    case isTrue hlt =>
      -- this was the last digit
      have hzero : ¬ value >>> 4 > 0 := by
        rw [gt_zero_iff, toNat_shiftRight_four]
        omega
      rw [hexLoop, dif_neg hzero, Nat.mod_eq_of_lt hlt]
      rfl
    case isFalse hge =>
      have hnext : 0 < (value >>> 4).toNat := by
        rw [toNat_shiftRight_four]
        omega
      have hlt : (value >>> 4).toNat < value.toNat := by
        rw [toNat_shiftRight_four]
        omega
      rw [ih _ hlt (value >>> 4) hnext _ rfl, toNat_shiftRight_four, List.append_assoc]
      rfl

/-- **What is printed is the hexadecimal numeral.** -/
theorem toList_showU128 (value : U128) : (showU128 value).toList = Nat.toDigits 16 value.toNat := by
  rw [showU128]
  split
  case isTrue hzero =>
    rw [hzero]
    rfl
  case isFalse hne =>
    have hpos : 0 < value.toNat := by
      rw [Nat.pos_iff_ne_zero]
      exact fun h => hne (BitVec.eq_of_toNat_eq h)
    rw [String.toList_ofList, hexLoop_eq value hpos, List.append_nil]

/-- The characters that digits are printed with. -/
def hexAlphabet : List Char := "0123456789abcdef".toList

theorem digitChar_mem_hexAlphabet : ∀ d < 16, d.digitChar ∈ hexAlphabet := by decide

theorem mem_hexAlphabet_of_mem {value : U128} {c : Char} (hc : c ∈ (showU128 value).toList) :
    c ∈ hexAlphabet := by
  rw [toList_showU128] at hc
  obtain ⟨d, hd, rfl⟩ := exists_digit_of_mem_toDigits (by omega) hc
  exact digitChar_mem_hexAlphabet d hd

/-- **Every value is printed**: no write is before the start of the buffer, and no read behind its
end. -/
theorem putU128_eq (buf : Vector Char 33) (value : U128) :
    putU128 buf value = some (showU128 value) := by
  by_cases hzero : value = 0
  · rw [putU128, showU128, if_pos hzero, if_pos hzero]
  have hpos : 0 < value.toNat := by
    rw [Nat.pos_iff_ne_zero]
    exact fun h => hzero (BitVec.eq_of_toNat_eq h)
  -- 32 digits are left behind the terminator
  have hend : 0 < (Buffer.atEnd buf).p := Nat.succ_pos 32
  obtain ⟨b₁, hterminator, hp₁, hrest₁⟩ := Buffer.write_spec hend '\x00'
  rw [Buffer.rest_atEnd] at hrest₁
  have hp : b₁.p = 32 := Nat.succ.inj hp₁
  have hspace : value.toNat < 16 ^ b₁.p := by
    rw [hp]
    exact value.isLt
  obtain ⟨b', hloop, hrest⟩ := writeHex_spec value b₁ hspace
  rw [hrest₁, hexLoop_eq value hpos, ← toList_showU128] at hrest
  have hplain : '\x00' ∉ (showU128 value).toList := by
    intro hmem
    exact absurd (mem_hexAlphabet_of_mem hmem) (by decide)
  have hprinted := Buffer.cString_of_rest hrest hplain
  rw [String.ofList_toList] at hprinted
  rw [putU128, if_neg hzero, hterminator, Option.bind_eq_bind, Option.bind_some, hloop,
    Option.bind_some, hprinted]

/-! ## Reading back -/

/-- The value of a hexadecimal digit. -/
def hexValue (c : Char) : Option ℕ :=
  if '0' ≤ c ∧ c ≤ '9' then some (c.toNat - 0x30)
  else if 'a' ≤ c ∧ c ≤ 'f' then some (c.toNat - 0x61 + 10)
  else none

/-- Reads a text in base 16. -/
def readHex (text : String) : Option ℕ := readNumeral hexValue 16 text.toList

theorem hexValue_digitChar : ∀ d < 16, hexValue d.digitChar = some d := by decide

theorem readHex_showU128 (value : U128) : readHex (showU128 value) = some value.toNat := by
  rw [readHex, toList_showU128]
  exact readNumeral_toDigits (by omega) hexValue_digitChar _

/-- Different values are not printed alike. -/
theorem showU128_injective : Function.Injective showU128 := by
  intro value value' h
  have hread := readHex_showU128 value
  rw [h, readHex_showU128 value', Option.some.injEq] at hread
  exact (BitVec.eq_of_toNat_eq hread).symm

theorem toList_fingerprintLine (M : U128) (file : String) :
    (fingerprintLine M file).toList = "fingerprint: ".toList ++
      ((showU128 M).toList ++ ("  ".toList ++ (file.toList ++ "\n".toList))) := by
  have hparts : ∀ a b c d e : String, (a ++ b ++ c ++ d ++ e).toList =
      a.toList ++ (b.toList ++ (c.toList ++ (d.toList ++ e.toList))) := by
    intro a b c d e
    simp only [String.toList_append, List.append_assoc]
  exact hparts _ _ _ _ _

/-- The line of a fingerprint tells the value from the name: there is no space in a numeral. -/
theorem fingerprintLine_injective {M M' : U128} {file file' : String}
    (h : fingerprintLine M file = fingerprintLine M' file') : M = M' ∧ file = file' := by
  have hlist := (toList_fingerprintLine M file).symm.trans
    ((congrArg String.toList h).trans (toList_fingerprintLine M' file'))
  have hrest := List.append_cancel_left hlist
  have hplain : ∀ (value : U128), ∀ c ∈ (showU128 value).toList, (c != ' ') = true := by
    intro value c hc
    exact bne_iff_ne.mpr fun heq => absurd (heq ▸ mem_hexAlphabet_of_mem hc) (by decide)
  have hgap : ∀ tail : List Char, ("  ".toList ++ tail).takeWhile (· != ' ') = [] := fun _ => rfl
  -- the numeral is what comes before the first space
  have hnumeral := congrArg (List.takeWhile (· != ' ')) hrest
  rw [List.takeWhile_append_of_pos (hplain M), List.takeWhile_append_of_pos (hplain M'),
    hgap, hgap, List.append_nil, List.append_nil] at hnumeral
  have hvalue : M = M' := showU128_injective (String.toList_injective hnumeral)
  subst hvalue
  have hname := List.append_cancel_right (List.append_cancel_left (List.append_cancel_left hrest))
  exact ⟨rfl, String.toList_injective hname⟩

/-- **The printed fingerprint determines `M`.**  Every value is printed inside the buffer, whatever
it holds at first; what is printed is the hexadecimal numeral of the value, in lower case and
without leading zeros; it is read back as the value; values that are printed alike are equal, and a
line of `printFingerprint` tells both the value and the name. -/
theorem printed_determines (buf : Vector Char 33) (value : U128) :
    putU128 buf value = some (showU128 value) ∧
    (showU128 value).toList = Nat.toDigits 16 value.toNat ∧
    (∀ c ∈ (showU128 value).toList, c ∈ hexAlphabet) ∧
    ((showU128 value).toList.head? = some '0' ↔ value = 0) ∧
    readHex (showU128 value) = some value.toNat ∧
    (∀ buf' value', putU128 buf' value' = putU128 buf value ↔ value' = value) ∧
    ∀ value' file file', fingerprintLine value' file' = fingerprintLine value file ↔
      value' = value ∧ file' = file := by
  refine ⟨putU128_eq buf value, toList_showU128 value, fun c hc => mem_hexAlphabet_of_mem hc, ?_,
    readHex_showU128 value, ?_, ?_⟩
  · rw [toList_showU128, head?_toDigits_eq_zero_iff (by omega), BitVec.toNat_eq]
    rfl
  · intro buf' value'
    rw [putU128_eq, putU128_eq, Option.some.injEq]
    exact showU128_injective.eq_iff
  · intro value' file file'
    constructor
    · exact fingerprintLine_injective
    · rintro ⟨rfl, rfl⟩
      rfl

end Dataprint
