import Dataprint.Foundations.WordMaps
import Dataprint.Scalars
import Dataprint.Paths
import Mathlib.Data.Fintype.Prod
import Mathlib.Data.Nat.Digits.Lemmas

/-!
# XXH3 of Short Inputs

The branches of `include/xxhash.h` that hash up to 16 bytes: most object keys, and every scalar but
a long string.  What longer inputs are hashed to is a parameter.

- `short_hashes_apart` — inputs of one length have different 128-bit hashes;
- `sixteen_bytes_permuted` — every 128-bit value is the hash of exactly one input of 16 bytes;
- `short_hashes64_apart` — up to 8 bytes, the 64-bit hashes are different too;
- `short_keys_apart` — so are the path hashes below different keys;
- `integers_hash_apart` — and the hashes of different integers.
-/

namespace Dataprint.XXH3

open Foundations

/-- `xxh_u32`. -/
abbrev U32 := BitVec 32

/-! ## Constants -/

def PRIME32_2 : U32 := 0x85EBCA77

def PRIME64_1 : U64 := 0x9E3779B185EBCA87

def PRIME64_2 : U64 := 0xC2B2AE3D27D4EB4F

def PRIME64_3 : U64 := 0x165667B19E3779F9

def PRIME_MX1 : U64 := 0x165667919E3779F9

def PRIME_MX2 : U64 := 0x9FB21C651E98DF25

/-- `XXH3_kSecret`. -/
def kSecret : Bytes := [
  0xb8, 0xfe, 0x6c, 0x39, 0x23, 0xa4, 0x4b, 0xbe, 0x7c, 0x01, 0x81, 0x2c, 0xf7, 0x21, 0xad, 0x1c,
  0xde, 0xd4, 0x6d, 0xe9, 0x83, 0x90, 0x97, 0xdb, 0x72, 0x40, 0xa4, 0xa4, 0xb7, 0xb3, 0x67, 0x1f,
  0xcb, 0x79, 0xe6, 0x4e, 0xcc, 0xc0, 0xe5, 0x78, 0x82, 0x5a, 0xd0, 0x7d, 0xcc, 0xff, 0x72, 0x21,
  0xb8, 0x08, 0x46, 0x74, 0xf7, 0x43, 0x24, 0x8e, 0xe0, 0x35, 0x90, 0xe6, 0x81, 0x3a, 0x26, 0x4c,
  0x3c, 0x28, 0x52, 0xbb, 0x91, 0xc3, 0x00, 0xcb, 0x88, 0xd0, 0x65, 0x8b, 0x1b, 0x53, 0x2e, 0xa3,
  0x71, 0x64, 0x48, 0x97, 0xa2, 0x0d, 0xf9, 0x4e, 0x38, 0x19, 0xef, 0x46, 0xa9, 0xde, 0xac, 0xd8,
  0xa8, 0xfa, 0x76, 0x3f, 0xe3, 0x9c, 0x34, 0x3f, 0xf9, 0xdc, 0xbb, 0xc7, 0xc7, 0x0b, 0x4f, 0x1d,
  0x8a, 0x51, 0xe0, 0x4b, 0xcd, 0xb4, 0x59, 0x31, 0xc8, 0x9f, 0x7e, 0xc9, 0xd9, 0x78, 0x73, 0x64,
  0xea, 0xc5, 0xac, 0x83, 0x34, 0xd3, 0xeb, 0xc3, 0xc5, 0x81, 0xa0, 0xff, 0xfa, 0x13, 0x63, 0xeb,
  0x17, 0x0d, 0xdd, 0x51, 0xb7, 0xf0, 0xda, 0x49, 0xd3, 0x16, 0x55, 0x26, 0x29, 0xd4, 0x68, 0x9e,
  0x2b, 0x16, 0xbe, 0x58, 0x7d, 0x47, 0xa1, 0xfc, 0x8f, 0xf8, 0xb8, 0xd1, 0x7a, 0xd0, 0x31, 0xce,
  0x45, 0xcb, 0x3a, 0x8f, 0x95, 0x16, 0x04, 0x28, 0xaf, 0xd7, 0xfb, 0xca, 0xbb, 0x4b, 0x40, 0x7e]

/-! ## Words -/

/-- The word at the start of some bytes, least significant byte first. -/
def readLE (w : ℕ) (ptr : Bytes) : BitVec w :=
  BitVec.ofNat w (Nat.ofDigits 256 ((ptr.take (w / 8)).map UInt8.toNat))

def readLE32 (ptr : Bytes) : U32 := readLE 32 ptr

def readLE64 (ptr : Bytes) : U64 := readLE 64 ptr

def swap32 (x : U32) : U32 :=
  ((x <<< 24) &&& 0xff000000) ||| ((x <<< 8) &&& 0x00ff0000) |||
    ((x >>> 8) &&& 0x0000ff00) ||| ((x >>> 24) &&& 0x000000ff)

def swap64 (x : U64) : U64 :=
  ((x <<< 56) &&& 0xff00000000000000) ||| ((x <<< 40) &&& 0x00ff000000000000) |||
    ((x <<< 24) &&& 0x0000ff0000000000) ||| ((x <<< 8) &&& 0x000000ff00000000) |||
    ((x >>> 8) &&& 0x00000000ff000000) ||| ((x >>> 24) &&& 0x0000000000ff0000) |||
    ((x >>> 40) &&& 0x000000000000ff00) ||| ((x >>> 56) &&& 0x00000000000000ff)

def mult32to64 (x y : U32) : U64 := x.setWidth 64 * y.setWidth 64

/-- The two halves of a product. -/
def mult64to128 (lhs rhs : U64) : XXH128Hash :=
  let product : BitVec 128 := lhs.setWidth 128 * rhs.setWidth 128
  { low64 := product.setWidth 64, high64 := (product >>> 64).setWidth 64 }

def mul128Fold64 (lhs rhs : U64) : U64 :=
  let product := mult64to128 lhs rhs
  product.low64 ^^^ product.high64

/-! ## Avalanches -/

/-- `XXH64_avalanche`. -/
def avalanche64 (hash : U64) : U64 :=
  let hash := xorShift 33 hash
  let hash := hash * PRIME64_2
  let hash := xorShift 29 hash
  let hash := hash * PRIME64_3
  xorShift 32 hash

/-- `XXH3_avalanche`. -/
def avalanche (h64 : U64) : U64 :=
  let h64 := xorShift 37 h64
  let h64 := h64 * PRIME_MX1
  xorShift 32 h64

def rrmxmx (h64 len : U64) : U64 :=
  let h64 := h64 ^^^ (h64.rotateLeft 49 ^^^ h64.rotateLeft 24)
  let h64 := h64 * PRIME_MX2
  let h64 := h64 ^^^ (h64 >>> 35 + len)
  let h64 := h64 * PRIME_MX2
  xorShift 28 h64

/-! ## Inputs of up to 16 bytes -/

/-- Up to three bytes with their number. -/
def combined (input : Bytes) : U32 :=
  let len := input.length
  let c1 := input.getD 0 0
  let c2 := input.getD (len >>> 1) 0
  let c3 := input.getD (len - 1) 0
  (c1.toBitVec.setWidth 32 <<< 16) ||| (c2.toBitVec.setWidth 32 <<< 24) |||
    (c3.toBitVec.setWidth 32 <<< 0) ||| (BitVec.ofNat 32 len <<< 8)

def len1to3_64b (input secret : Bytes) (seed : U64) : U64 :=
  let bitflip := (readLE32 secret ^^^ readLE32 (secret.drop 4)).setWidth 64 + seed
  let keyed := (combined input).setWidth 64 ^^^ bitflip
  avalanche64 keyed

def len4to8_64b (input secret : Bytes) (seed : U64) : U64 :=
  let len := input.length
  let seed := seed ^^^ (swap32 (seed.setWidth 32)).setWidth 64 <<< 32
  let input1 := readLE32 input
  let input2 := readLE32 (input.drop (len - 4))
  let bitflip := (readLE64 (secret.drop 8) ^^^ readLE64 (secret.drop 16)) - seed
  let input64 := input2.setWidth 64 + input1.setWidth 64 <<< 32
  let keyed := input64 ^^^ bitflip
  rrmxmx keyed (BitVec.ofNat 64 len)

def len9to16_64b (input secret : Bytes) (seed : U64) : U64 :=
  let len := input.length
  let bitflip1 := (readLE64 (secret.drop 24) ^^^ readLE64 (secret.drop 32)) + seed
  let bitflip2 := (readLE64 (secret.drop 40) ^^^ readLE64 (secret.drop 48)) - seed
  let inputLo := readLE64 input ^^^ bitflip1
  let inputHi := readLE64 (input.drop (len - 8)) ^^^ bitflip2
  let acc := BitVec.ofNat 64 len + swap64 inputLo + inputHi + mul128Fold64 inputLo inputHi
  avalanche acc

def len0to16_64b (input secret : Bytes) (seed : U64) : U64 :=
  let len := input.length
  if len > 8 then len9to16_64b input secret seed
  else if len ≥ 4 then len4to8_64b input secret seed
  else if len ≠ 0 then len1to3_64b input secret seed
  else avalanche64 (seed ^^^ (readLE64 (secret.drop 56) ^^^ readLE64 (secret.drop 64)))

def len1to3_128b (input secret : Bytes) (seed : U64) : XXH128Hash :=
  let combinedl := combined input
  let combinedh := (swap32 combinedl).rotateLeft 13
  let bitflipl := (readLE32 secret ^^^ readLE32 (secret.drop 4)).setWidth 64 + seed
  let bitfliph := (readLE32 (secret.drop 8) ^^^ readLE32 (secret.drop 12)).setWidth 64 - seed
  let keyedLo := combinedl.setWidth 64 ^^^ bitflipl
  let keyedHi := combinedh.setWidth 64 ^^^ bitfliph
  { low64 := avalanche64 keyedLo, high64 := avalanche64 keyedHi }

def len4to8_128b (input secret : Bytes) (seed : U64) : XXH128Hash :=
  let len := input.length
  let seed := seed ^^^ (swap32 (seed.setWidth 32)).setWidth 64 <<< 32
  let inputLo := readLE32 input
  let inputHi := readLE32 (input.drop (len - 4))
  let input64 := inputLo.setWidth 64 + inputHi.setWidth 64 <<< 32
  let bitflip := (readLE64 (secret.drop 16) ^^^ readLE64 (secret.drop 24)) + seed
  let keyed := input64 ^^^ bitflip
  -- the length is shifted, so that the factor stays odd
  let m128 := mult64to128 keyed (PRIME64_1 + BitVec.ofNat 64 len <<< 2)
  let high64 := m128.high64 + m128.low64 <<< 1
  let low64 := m128.low64 ^^^ high64 >>> 3
  let low64 := xorShift 35 low64
  let low64 := low64 * PRIME_MX2
  let low64 := xorShift 28 low64
  { low64 := low64, high64 := avalanche high64 }

def len9to16_128b (input secret : Bytes) (seed : U64) : XXH128Hash :=
  let len := input.length
  let bitflipl := (readLE64 (secret.drop 32) ^^^ readLE64 (secret.drop 40)) - seed
  let bitfliph := (readLE64 (secret.drop 48) ^^^ readLE64 (secret.drop 56)) + seed
  let inputLo := readLE64 input
  let inputHi := readLE64 (input.drop (len - 8))
  let m128 := mult64to128 (inputLo ^^^ inputHi ^^^ bitflipl) PRIME64_1
  let low64 := m128.low64 + BitVec.ofNat 64 (len - 1) <<< 54
  let inputHi := inputHi ^^^ bitfliph
  -- pointers are as wide as words
  let high64 := m128.high64 + (inputHi + mult32to64 (inputHi.setWidth 32) (PRIME32_2 - 1))
  let low64 := low64 ^^^ swap64 high64
  let h128 := mult64to128 low64 PRIME64_2
  { low64 := avalanche h128.low64, high64 := avalanche (h128.high64 + high64 * PRIME64_2) }

def len0to16_128b (input secret : Bytes) (seed : U64) : XXH128Hash :=
  let len := input.length
  if len > 8 then len9to16_128b input secret seed
  else if len ≥ 4 then len4to8_128b input secret seed
  else if len ≠ 0 then len1to3_128b input secret seed
  else
    let bitflipl := readLE64 (secret.drop 64) ^^^ readLE64 (secret.drop 72)
    let bitfliph := readLE64 (secret.drop 80) ^^^ readLE64 (secret.drop 88)
    { low64 := avalanche64 (seed ^^^ bitflipl), high64 := avalanche64 (seed ^^^ bitfliph) }

/-- `XXH3_64bits`, with what is beyond 16 bytes as a parameter. -/
def bits64 (long : Bytes → U64) (input : Bytes) : U64 :=
  if input.length ≤ 16 then len0to16_64b input kSecret 0 else long input

/-- `XXH3_128bits`, likewise. -/
def bits128 (long : Bytes → XXH128Hash) (input : Bytes) : XXH128Hash :=
  if input.length ≤ 16 then len0to16_128b input kSecret 0 else long input

/-! ## Bytes and words -/

theorem lt_of_mem_digits {bytes : Bytes} {d : ℕ} (h : d ∈ bytes.map UInt8.toNat) : d < 256 := by
  obtain ⟨b, -, rfl⟩ := List.mem_map.mp h
  exact b.toNat_lt

theorem ofDigits_lt (bytes : Bytes) :
    Nat.ofDigits 256 (bytes.map UInt8.toNat) < 256 ^ bytes.length := by
  have hlt := Nat.ofDigits_lt_base_pow_length (by decide : 1 < 256)
    (fun _ h => @lt_of_mem_digits bytes _ h)
  rwa [List.length_map] at hlt

/-- A word tells the bytes it was read from. -/
theorem readLE_inj {n : ℕ} {x y : Bytes} (hx : n ≤ x.length) (hy : n ≤ y.length)
    (h : readLE (8 * n) x = readLE (8 * n) y) : x.take n = y.take n := by
  have hn : 8 * n / 8 = n := Nat.mul_div_cancel_left n (by decide)
  have hfits : ∀ {z : Bytes}, n ≤ z.length →
      (readLE (8 * n) z).toNat = Nat.ofDigits 256 ((z.take n).map UInt8.toNat) := by
    intro z hz
    have hlt := ofDigits_lt (z.take n)
    rw [List.length_take_of_le hz, show (256 : ℕ) = 2 ^ 8 from rfl, ← Nat.pow_mul] at hlt
    rw [readLE, BitVec.toNat_ofNat, hn]
    exact Nat.mod_eq_of_lt hlt
  have hvalue := congrArg BitVec.toNat h
  rw [hfits hx, hfits hy] at hvalue
  have hdigits := Nat.ofDigits_inj_of_len_eq (by decide : 1 < 256)
    (by simp [hx, hy]) (fun _ => lt_of_mem_digits) (fun _ => lt_of_mem_digits) hvalue
  exact List.map_injective_iff.mpr (fun _ _ => UInt8.toNat_inj.mp) hdigits

/-- **The words at both ends tell the whole input**, if they leave no gap. -/
theorem eq_of_reads {n : ℕ} {x y : Bytes} (hlen : x.length = y.length) (hn : n ≤ x.length)
    (hgap : x.length ≤ 2 * n) (hlo : readLE (8 * n) x = readLE (8 * n) y)
    (hhi : readLE (8 * n) (x.drop (x.length - n)) = readLE (8 * n) (y.drop (y.length - n))) :
    x = y := by
  have htake : x.take n = y.take n := readLE_inj hn (by omega) hlo
  have hdrop : x.drop (x.length - n) = y.drop (y.length - n) := by
    have hends := readLE_inj (by simp; omega) (by simp; omega) hhi
    rwa [List.take_of_length_le (by simp; omega), List.take_of_length_le (by simp; omega)] at hends
  -- what stands before the second word is a part of the first
  have hbefore : x.take (x.length - n) = y.take (y.length - n) := by
    have hpart := congrArg (List.take (x.length - n)) htake
    rw [List.take_take, List.take_take, Nat.min_eq_left (by omega)] at hpart
    rwa [← hlen]
  rw [← List.take_append_drop (x.length - n) x, ← List.take_append_drop (y.length - n) y, hbefore,
    hdrop]

theorem ofDigits_leBytes (n x : ℕ) :
    Nat.ofDigits 256 ((leBytes n x).map UInt8.toNat) = x % 256 ^ n := by
  induction n generalizing x with
  | zero => simp [leBytes, Nat.mod_one]
  | succ n ih =>
    rw [leBytes, List.map_cons, Nat.ofDigits_cons, ih, Nat.pow_succ', Nat.mod_mul]
    simp

theorem readLE64_leBytes (x : U64) (rest : Bytes) :
    readLE64 (leBytes 8 x.toNat ++ rest) = x := by
  apply BitVec.eq_of_toNat_eq
  have htake : (leBytes 8 x.toNat ++ rest).take 8 = leBytes 8 x.toNat :=
    List.take_left' (length_leBytes 8 _)
  have hfits : x.toNat % 256 ^ 8 = x.toNat := Nat.mod_eq_of_lt x.isLt
  rw [readLE64, readLE, htake, ofDigits_leBytes, hfits, BitVec.toNat_ofNat]
  exact Nat.mod_eq_of_lt x.isLt

/-- Two words of half the width, one above the other. -/
theorem packed_inj {lo hi lo' hi' : U32}
    (h : lo.setWidth 64 + hi.setWidth 64 <<< 32 = lo'.setWidth 64 + hi'.setWidth 64 <<< 32) :
    lo = lo' ∧ hi = hi' := by
  have hvalue : ∀ a b : U32, (a.setWidth 64 + b.setWidth 64 <<< 32).toNat =
      a.toNat + b.toNat * 2 ^ 32 := by
    intro a b
    have ha := a.isLt
    have hb := b.isLt
    simp only [BitVec.toNat_add, BitVec.toNat_setWidth, BitVec.toNat_shiftLeft,
      Nat.shiftLeft_eq]
    omega
  have hnat := congrArg BitVec.toNat h
  rw [hvalue, hvalue] at hnat
  have hlo := lo.isLt
  have hlo' := lo'.isLt
  constructor
  · apply BitVec.eq_of_toNat_eq
    omega
  · apply BitVec.eq_of_toNat_eq
    omega

/-! ## Short inputs are told apart -/

theorem setWidth_injective : Function.Injective (BitVec.setWidth 64 : U32 → U64) := by
  intro x y h
  have hnarrow := congrArg (BitVec.setWidth 32) h
  rwa [BitVec.setWidth_setWidth_of_le x (by decide), BitVec.setWidth_setWidth_of_le y (by decide),
    BitVec.setWidth_eq, BitVec.setWidth_eq] at hnarrow

/-- Four bytes side by side in a word. -/
theorem extractLsb'_fields (c1 c2 c3 n : BitVec 8) :
    let word : U32 := c1.setWidth 32 <<< 16 ||| c2.setWidth 32 <<< 24 ||| c3.setWidth 32 <<< 0 |||
      n.setWidth 32 <<< 8
    word.extractLsb' 0 8 = c3 ∧ word.extractLsb' 8 8 = n ∧ word.extractLsb' 16 8 = c1 ∧
      word.extractLsb' 24 8 = c2 := by
  intro word
  refine ⟨?_, ?_, ?_, ?_⟩ <;>
  · apply BitVec.eq_of_getLsbD_eq
    intro i hi
    -- a bit of this field is beyond the end of the lower ones and below the higher ones
    interval_cases i <;> simp [word, BitVec.getLsbD_of_ge]

/-- One to three bytes. -/
def Tiny (input : Bytes) : Prop := 1 ≤ input.length ∧ input.length ≤ 3

theorem combined_fields {x : Bytes} (hx : Tiny x) :
    (combined x).extractLsb' 0 8 = (x.getD (x.length - 1) 0).toBitVec ∧
      (combined x).extractLsb' 8 8 = BitVec.ofNat 8 x.length ∧
      (combined x).extractLsb' 16 8 = (x.getD 0 0).toBitVec ∧
      (combined x).extractLsb' 24 8 = (x.getD (x.length >>> 1) 0).toBitVec := by
  have hlen : BitVec.ofNat 32 x.length = (BitVec.ofNat 8 x.length).setWidth 32 := by
    have hx' := hx.2
    apply BitVec.eq_of_toNat_eq
    simp
    omega
  rw [combined, hlen]
  exact extractLsb'_fields _ _ _ _

/-- **The number of bytes is among what is combined.** -/
theorem combined_inj {x y : Bytes} (hx : Tiny x) (hy : Tiny y) (h : combined x = combined y) :
    x = y := by
  obtain ⟨hlast, hcount, hfirst, hmiddle⟩ := combined_fields hx
  obtain ⟨hlast', hcount', hfirst', hmiddle'⟩ := combined_fields hy
  rw [h] at hlast hcount hfirst hmiddle
  obtain ⟨hx1, hx3⟩ := hx
  obtain ⟨hy1, hy3⟩ := hy
  have hlength : x.length = y.length := by
    have hnat := congrArg BitVec.toNat (hcount.symm.trans hcount')
    simp only [BitVec.toNat_ofNat] at hnat
    omega
  apply List.ext_getElem hlength
  intro i hi hi'
  have hbyte : x.getD i 0 = y.getD i 0 := by
    -- no byte is left between the first, the middle and the last one
    have hplace : i = 0 ∨ i = x.length >>> 1 ∨ i = x.length - 1 := by
      rw [Nat.shiftRight_eq_div_pow]
      omega
    rcases hplace with rfl | rfl | rfl
    · exact UInt8.toBitVec_inj.mp (hfirst.symm.trans hfirst')
    · rw [← hlength] at hmiddle'
      exact UInt8.toBitVec_inj.mp (hmiddle.symm.trans hmiddle')
    · rw [← hlength] at hlast'
      exact UInt8.toBitVec_inj.mp (hlast.symm.trans hlast')
  simpa [hi, hi'] using hbyte

theorem avalanche64_injective : Function.Injective avalanche64 := by
  intro x y h
  have h1 := xorShift_injective (by decide) h
  have h2 := mul_odd_injective (by decide) h1
  have h3 := xorShift_injective (by decide) h2
  have h4 := mul_odd_injective (by decide) h3
  exact xorShift_injective (by decide) h4

theorem avalanche_injective : Function.Injective avalanche := by
  intro x y h
  have h1 := xorShift_injective (by decide) h
  have h2 := mul_odd_injective (by decide) h1
  exact xorShift_injective (by decide) h2

/-- Of a length that stays below the bits that are shifted. -/
theorem rrmxmx_injective {len : ℕ} (hlen : len ≤ 2 ^ 34) :
    Function.Injective (rrmxmx · (BitVec.ofNat 64 len)) := by
  intro x y h
  have h1 := xorShift_injective (by decide) h
  have h2 := mul_odd_injective (by decide) h1
  have hsmall : 2 ^ (64 - 35) + (BitVec.ofNat 64 len).toNat ≤ 2 ^ 35 := by
    simp
    omega
  have h3 := xorShiftAdd_injective hsmall h2
  have h4 := mul_odd_injective (by decide) h3
  apply @xorRotate_injective 64 6 rfl 49 24
  rw [xorRotate, xorRotate, BitVec.xor_assoc, BitVec.xor_assoc]
  exact h4

/-- The hashes of one to three bytes are those of their combination. -/
theorem len1to3_64b_inj {x y secret : Bytes} {seed : U64} (hx : Tiny x) (hy : Tiny y)
    (h : len1to3_64b x secret seed = len1to3_64b y secret seed) : x = y := by
  apply combined_inj hx hy
  have hkeyed := avalanche64_injective h
  exact setWidth_injective ((BitVec.xor_left_inj _).mp hkeyed)

theorem len1to3_128b_inj {x y secret : Bytes} {seed : U64} (hx : Tiny x) (hy : Tiny y)
    (h : len1to3_128b x secret seed = len1to3_128b y secret seed) : x = y := by
  apply combined_inj hx hy
  have hkeyed := avalanche64_injective (congrArg XXH128Hash.low64 h)
  exact setWidth_injective ((BitVec.xor_left_inj _).mp hkeyed)

/-- Four to eight bytes are a word at both ends. -/
theorem len4to8_64b_inj {x y secret : Bytes} {seed : U64} (hlen : x.length = y.length)
    (h4 : 4 ≤ x.length) (h8 : x.length ≤ 8)
    (h : len4to8_64b x secret seed = len4to8_64b y secret seed) : x = y := by
  rw [len4to8_64b, len4to8_64b, ← hlen] at h
  have hkeyed := rrmxmx_injective (by omega) h
  have hpacked := (BitVec.xor_left_inj _).mp hkeyed
  obtain ⟨hhi, hlo⟩ := packed_inj hpacked
  apply @eq_of_reads 4 x y hlen h4 h8 hlo
  rw [← hlen]
  exact hhi

/-- The factor is odd, whatever the length. -/
theorem len_factor_odd (len : U64) : (PRIME64_1 + len <<< 2).getLsbD 0 = true := by
  rw [BitVec.getLsbD_add (by decide), BitVec.carry_zero]
  simp [PRIME64_1]

/-- The low half of a product is the product. -/
theorem mult64to128_low64 (x y : U64) : (mult64to128 x y).low64 = x * y := by
  show (x.setWidth 128 * y.setWidth 128).setWidth 64 = x * y
  rw [BitVec.setWidth_mul _ _ (by decide), BitVec.setWidth_setWidth_of_le x (by decide),
    BitVec.setWidth_setWidth_of_le y (by decide), BitVec.setWidth_eq, BitVec.setWidth_eq]

/-- **The product tells the input by its low half**, which the high half was xored into. -/
theorem len4to8_128b_inj {x y secret : Bytes} {seed : U64} (hlen : x.length = y.length)
    (h4 : 4 ≤ x.length) (h8 : x.length ≤ 8)
    (h : len4to8_128b x secret seed = len4to8_128b y secret seed) : x = y := by
  rw [len4to8_128b, len4to8_128b, ← hlen] at h
  simp only [XXH128Hash.mk.injEq] at h
  obtain ⟨hlow, hhigh⟩ := h
  have hhigh := avalanche_injective hhigh
  have hlow := xorShift_injective (by decide) hlow
  have hlow := mul_odd_injective (by decide) hlow
  have hlow := xorShift_injective (by decide) hlow
  rw [hhigh] at hlow
  have hproduct := (BitVec.xor_left_inj _).mp hlow
  rw [mult64to128_low64, mult64to128_low64] at hproduct
  have hkeyed := mul_odd_injective (len_factor_odd _) hproduct
  obtain ⟨hlo, hhi⟩ := packed_inj ((BitVec.xor_left_inj _).mp hkeyed)
  apply @eq_of_reads 4 x y hlen h4 h8 hlo
  rw [← hlen]
  exact hhi

/-- The hash of the two words of a longer input, and of its length. -/
def hashWords (len : ℕ) (bitflipl bitfliph inputLo inputHi : U64) : XXH128Hash :=
  let m128 := mult64to128 (inputLo ^^^ inputHi ^^^ bitflipl) PRIME64_1
  let low64 := m128.low64 + BitVec.ofNat 64 (len - 1) <<< 54
  let inputHi := inputHi ^^^ bitfliph
  let high64 := m128.high64 + (inputHi + mult32to64 (inputHi.setWidth 32) (PRIME32_2 - 1))
  let low64 := low64 ^^^ swap64 high64
  let h128 := mult64to128 low64 PRIME64_2
  { low64 := avalanche h128.low64, high64 := avalanche (h128.high64 + high64 * PRIME64_2) }

theorem len9to16_128b_eq (input secret : Bytes) (seed : U64) :
    len9to16_128b input secret seed = hashWords input.length
      ((readLE64 (secret.drop 32) ^^^ readLE64 (secret.drop 40)) - seed)
      ((readLE64 (secret.drop 48) ^^^ readLE64 (secret.drop 56)) + seed)
      (readLE64 input) (readLE64 (input.drop (input.length - 8))) := rfl

/-- **Every step can be undone from the end**: the low half gives the first product, its high half
the second summand, and that the second word. -/
theorem hashWords_inj {len : ℕ} {bitflipl bitfliph lo hi lo' hi' : U64}
    (h : hashWords len bitflipl bitfliph lo hi = hashWords len bitflipl bitfliph lo' hi') :
    lo = lo' ∧ hi = hi' := by
  simp only [hashWords, XXH128Hash.mk.injEq, mult64to128_low64] at h
  obtain ⟨hlow, hhigh⟩ := h
  have hlow := mul_odd_injective (m := PRIME64_2) (by decide) (avalanche_injective hlow)
  have hhigh := avalanche_injective hhigh
  rw [hlow] at hhigh
  have hhigh := mul_odd_injective (m := PRIME64_2) (by decide) ((BitVec.add_right_inj _).mp hhigh)
  -- the high half is known, and what it was xored into the low half cancels
  rw [hhigh] at hlow
  have hproduct := (BitVec.add_left_inj _).mp ((BitVec.xor_left_inj _).mp hlow)
  have hmixed := mul_odd_injective (m := PRIME64_1) (by decide) hproduct
  rw [hmixed] at hhigh
  have hadded := (BitVec.add_right_inj _).mp hhigh
  have hflipped := @addLowMul_injective 64 32 (by decide) ((PRIME32_2 - 1).setWidth 64) (by decide)
    _ _ hadded
  have hhi := (BitVec.xor_left_inj _).mp hflipped
  subst hhi
  exact ⟨(BitVec.xor_left_inj _).mp ((BitVec.xor_left_inj _).mp hmixed), rfl⟩

theorem len9to16_128b_inj {x y secret : Bytes} {seed : U64} (hlen : x.length = y.length)
    (h9 : 9 ≤ x.length) (h16 : x.length ≤ 16)
    (h : len9to16_128b x secret seed = len9to16_128b y secret seed) : x = y := by
  rw [len9to16_128b_eq, len9to16_128b_eq, ← hlen] at h
  obtain ⟨hlo, hhi⟩ := hashWords_inj h
  apply @eq_of_reads 8 x y hlen (by omega) h16 hlo
  rw [← hlen]
  exact hhi

/-! ## The hashes of the program -/

/-- What a few bytes and the flips for them come to has no high half. -/
theorem keyed_high (a b : U32) : (a.setWidth 64 ^^^ (b.setWidth 64 + 0#64)) >>> 32 = 0#64 := by
  rw [BitVec.add_zero]
  apply BitVec.eq_of_getLsbD_eq
  intro i _
  simp

/-- With the secret of the source no bytes at all are not hashed like a few. -/
theorem len1to3_64b_ne_empty (input : Bytes) :
    len1to3_64b input kSecret 0 ≠ len0to16_64b [] kSecret 0 := by
  intro h
  have hkeyed : (combined input).setWidth 64 ^^^
      ((readLE32 kSecret ^^^ readLE32 (kSecret.drop 4)).setWidth 64 + 0#64) =
      0#64 ^^^ (readLE64 (kSecret.drop 56) ^^^ readLE64 (kSecret.drop 64)) := avalanche64_injective h
  have hsecret : (0#64 ^^^ (readLE64 (kSecret.drop 56) ^^^ readLE64 (kSecret.drop 64))) >>> 32
      ≠ 0#64 := by decide +kernel
  apply hsecret
  rw [← hkeyed]
  exact keyed_high _ _

theorem len1to3_128b_ne_empty (input : Bytes) :
    len1to3_128b input kSecret 0 ≠ len0to16_128b [] kSecret 0 := by
  intro h
  have hkeyed : (combined input).setWidth 64 ^^^
      ((readLE32 kSecret ^^^ readLE32 (kSecret.drop 4)).setWidth 64 + 0#64) =
      0#64 ^^^ (readLE64 (kSecret.drop 64) ^^^ readLE64 (kSecret.drop 72)) :=
    avalanche64_injective (congrArg XXH128Hash.low64 h)
  have hsecret : (0#64 ^^^ (readLE64 (kSecret.drop 64) ^^^ readLE64 (kSecret.drop 72))) >>> 32
      ≠ 0#64 := by decide +kernel
  apply hsecret
  rw [← hkeyed]
  exact keyed_high _ _

variable {long64 : Bytes → U64} {long128 : Bytes → XXH128Hash}

theorem Tiny.bits64_eq {x : Bytes} (hx : Tiny x) : bits64 long64 x = len1to3_64b x kSecret 0 := by
  obtain ⟨h1, h3⟩ := hx
  simp [bits64, len0to16_64b, show x.length ≤ 16 by omega, show ¬ 8 < x.length by omega,
    show ¬ 4 ≤ x.length by omega, show x ≠ [] by rintro rfl; simp at h1]

theorem Tiny.bits128_eq {x : Bytes} (hx : Tiny x) :
    bits128 long128 x = len1to3_128b x kSecret 0 := by
  obtain ⟨h1, h3⟩ := hx
  simp [bits128, len0to16_128b, show x.length ≤ 16 by omega, show ¬ 8 < x.length by omega,
    show ¬ 4 ≤ x.length by omega, show x ≠ [] by rintro rfl; simp at h1]

theorem bits64_eq_len4to8 {x : Bytes} (h4 : 4 ≤ x.length) (h8 : x.length ≤ 8) :
    bits64 long64 x = len4to8_64b x kSecret 0 := by
  simp [bits64, len0to16_64b, show x.length ≤ 16 by omega, show ¬ 8 < x.length by omega, h4]

theorem bits128_eq_len4to8 {x : Bytes} (h4 : 4 ≤ x.length) (h8 : x.length ≤ 8) :
    bits128 long128 x = len4to8_128b x kSecret 0 := by
  simp [bits128, len0to16_128b, show x.length ≤ 16 by omega, show ¬ 8 < x.length by omega, h4]

theorem bits128_eq_len9to16 {x : Bytes} (h9 : 9 ≤ x.length) (h16 : x.length ≤ 16) :
    bits128 long128 x = len9to16_128b x kSecret 0 := by
  simp [bits128, len0to16_128b, h16, show 8 < x.length by omega]

/-- Up to three bytes. -/
theorem nil_or_tiny {x : Bytes} (h : x.length ≤ 3) : x = [] ∨ Tiny x := by
  rcases Nat.eq_zero_or_pos x.length with hzero | hpos
  · exact .inl (List.length_eq_zero_iff.mp hzero)
  · exact .inr ⟨hpos, h⟩

theorem bits64_inj_of_length_le_three {x y : Bytes} (hx : x.length ≤ 3) (hy : y.length ≤ 3)
    (h : bits64 long64 x = bits64 long64 y) : x = y := by
  rcases nil_or_tiny hx with rfl | hx
  · rcases nil_or_tiny hy with rfl | hy
    · rfl
    · rw [hy.bits64_eq] at h
      exact absurd h.symm (len1to3_64b_ne_empty y)
  · rw [hx.bits64_eq] at h
    rcases nil_or_tiny hy with rfl | hy
    · exact absurd h (len1to3_64b_ne_empty x)
    · rw [hy.bits64_eq] at h
      exact len1to3_64b_inj hx hy h

theorem bits128_inj_of_length_le_three {x y : Bytes} (hx : x.length ≤ 3) (hy : y.length ≤ 3)
    (h : bits128 long128 x = bits128 long128 y) : x = y := by
  rcases nil_or_tiny hx with rfl | hx
  · rcases nil_or_tiny hy with rfl | hy
    · rfl
    · rw [hy.bits128_eq] at h
      exact absurd h.symm (len1to3_128b_ne_empty y)
  · rw [hx.bits128_eq] at h
    rcases nil_or_tiny hy with rfl | hy
    · exact absurd h (len1to3_128b_ne_empty x)
    · rw [hy.bits128_eq] at h
      exact len1to3_128b_inj hx hy h

/-- Two inputs of one length up to a bound, or both of at most three bytes. -/
def Comparable (bound : ℕ) (x y : Bytes) : Prop :=
  x.length = y.length ∧ x.length ≤ bound ∨ x.length ≤ 3 ∧ y.length ≤ 3

theorem bits64_inj {x y : Bytes} (hxy : Comparable 8 x y) (h : bits64 long64 x = bits64 long64 y) :
    x = y := by
  rcases hxy with ⟨hlen, h8⟩ | ⟨hx, hy⟩
  · rcases Nat.lt_or_ge x.length 4 with h3 | h4
    · exact bits64_inj_of_length_le_three (by omega) (by omega) h
    · rw [bits64_eq_len4to8 h4 h8, bits64_eq_len4to8 (hlen ▸ h4) (hlen ▸ h8)] at h
      exact len4to8_64b_inj hlen h4 h8 h
  · exact bits64_inj_of_length_le_three hx hy h

theorem bits128_inj {x y : Bytes} (hxy : Comparable 16 x y)
    (h : bits128 long128 x = bits128 long128 y) : x = y := by
  rcases hxy with ⟨hlen, h16⟩ | ⟨hx, hy⟩
  · rcases Nat.lt_or_ge x.length 4 with h3 | h4
    · exact bits128_inj_of_length_le_three (by omega) (by omega) h
    · rcases Nat.lt_or_ge x.length 9 with h8 | h9
      · rw [bits128_eq_len4to8 h4 (by omega), bits128_eq_len4to8 (hlen ▸ h4) (by omega)] at h
        exact len4to8_128b_inj hlen h4 (by omega) h
      · rw [bits128_eq_len9to16 h9 h16, bits128_eq_len9to16 (hlen ▸ h9) (hlen ▸ h16)] at h
        exact len9to16_128b_inj hlen h9 h16 h
  · exact bits128_inj_of_length_le_three hx hy h

/-- **Short inputs have different 128-bit hashes**, if they are of one length or of at most three
bytes. -/
theorem short_hashes_apart (long : Bytes → XXH128Hash) (x y : Bytes) (hxy : Comparable 16 x y) :
    bits128 long x = bits128 long y ↔ x = y :=
  ⟨bits128_inj hxy, congrArg _⟩

/-- Two booleans. -/
theorem short_hashes_apart_booleans :
    bits128 (fun _ => ⟨0, 0⟩) [0] ≠ bits128 (fun _ => ⟨0, 0⟩) [1] := by
  rw [ne_eq, short_hashes_apart _ _ _ (.inr (by decide))]
  decide

example : bits128 (fun _ => ⟨0, 0⟩) [] = ⟨0x6001c324468d497f, 0x99aa06d3014798d8⟩ := by
  decide +kernel

/-- **The 64-bit hashes are different too**, up to 8 bytes: longer inputs are folded. -/
theorem short_hashes64_apart (long : Bytes → U64) (x y : Bytes) (hxy : Comparable 8 x y) :
    bits64 long x = bits64 long y ↔ x = y :=
  ⟨bits64_inj hxy, congrArg _⟩

/-- Two keys of different lengths. -/
theorem short_hashes64_apart_id :
    bits64 (fun _ => 0) [0x69, 0x64] ≠ bits64 (fun _ => 0) [0x69, 0x64, 0x73] := by
  rw [ne_eq, short_hashes64_apart _ _ _ (.inr (by decide))]
  decide

instance : Finite U64 := Finite.of_injective BitVec.toFin (fun _ _ h => BitVec.eq_of_toFin_eq h)

/-- A hash as a pair. -/
def halves (h : XXH128Hash) : U64 × U64 := (h.low64, h.high64)

theorem halves_injective : Function.Injective halves := by
  rintro ⟨low, high⟩ ⟨low', high'⟩ h
  cases h
  rfl

/-- **What can be undone reaches every value**: there are as many hashes as pairs of words. -/
theorem exists_hashWords_eq (len : ℕ) (bitflipl bitfliph : U64) (out : XXH128Hash) :
    ∃ lo hi, hashWords len bitflipl bitfliph lo hi = out := by
  have hinjective : Function.Injective fun words : U64 × U64 =>
      halves (hashWords len bitflipl bitfliph words.1 words.2) := by
    rintro ⟨lo, hi⟩ ⟨lo', hi'⟩ h
    have hsame : hashWords len bitflipl bitfliph lo hi = hashWords len bitflipl bitfliph lo' hi' :=
      halves_injective h
    obtain ⟨hlo, hhi⟩ := hashWords_inj hsame
    rw [hlo, hhi]
  obtain ⟨⟨lo, hi⟩, h⟩ := Finite.surjective_of_injective hinjective (halves out)
  exact ⟨lo, hi, halves_injective h⟩

/-- **Inputs of 16 bytes are permuted**: every 128-bit value is the hash of exactly one. -/
theorem sixteen_bytes_permuted (long : Bytes → XXH128Hash) (out : XXH128Hash) :
    ∃! input : Bytes, input.length = 16 ∧ bits128 long input = out := by
  obtain ⟨lo, hi, hout⟩ := exists_hashWords_eq 16
    ((readLE64 (kSecret.drop 32) ^^^ readLE64 (kSecret.drop 40)) - 0)
    ((readLE64 (kSecret.drop 48) ^^^ readLE64 (kSecret.drop 56)) + 0) out
  have hlen : (leBytes 8 lo.toNat ++ leBytes 8 hi.toNat).length = 16 := by simp
  have hsecond : readLE64 ((leBytes 8 lo.toNat ++ leBytes 8 hi.toNat).drop (16 - 8)) = hi := by
    rw [List.drop_left' (length_leBytes 8 _), ← List.append_nil (leBytes 8 hi.toNat)]
    exact readLE64_leBytes hi []
  have hhash : bits128 long (leBytes 8 lo.toNat ++ leBytes 8 hi.toNat) = out := by
    rw [bits128_eq_len9to16 (by omega) (by omega), len9to16_128b_eq, hlen, readLE64_leBytes,
      hsecond, hout]
  refine ⟨_, ⟨hlen, hhash⟩, ?_⟩
  rintro input ⟨hinput, hsame⟩
  exact bits128_inj (.inl ⟨hinput.trans hlen.symm, hinput.le⟩) (hsame.trans hhash.symm)

/-! ## Keys and scalars -/

/-- **Short keys lead to different path hashes**: below any parent, two keys of one length up to 8
bytes, or of at most three bytes, have the same path hash only if they are the same. -/
theorem short_keys_apart (env : Env) (long : Bytes → U64) (hxxh : env.xxh3Bits64 = bits64 long)
    (path : U64) (key key' : Bytes) (h : Comparable 8 key key') :
    (PathStep.key key).child env path = (PathStep.key key').child env path ↔ key = key' := by
  constructor
  · intro hchild
    have hhash := mix_injective path hchild
    rw [hxxh] at hhash
    exact bits64_inj h hhash
  · rintro rfl
    rfl

/-- The keys `id` and `ids`. -/
theorem short_keys_apart_id :
    let env := { Env.plain .refusing with xxh3Bits64 := bits64 fun _ => 0 }
    (PathStep.key [0x69, 0x64]).child env 0 ≠ (PathStep.key [0x69, 0x64, 0x73]).child env 0 := by
  intro env
  have hcomparable : Comparable 8 [0x69, 0x64] [0x69, 0x64, 0x73] := .inr (by decide)
  rw [ne_eq, short_keys_apart env _ rfl 0 _ _ hcomparable]
  decide

/-- `h` of `XXHash`: the hash of a scalar, before the path is mixed in. -/
def leafHash (env : Env) (value : Token) : Except Exn XXH128Hash := do
  match ← scalarBytes env value with
  | some bytes => return env.xxh3Bits128 bytes
  | none => return env.unassigned

theorem XXHash_eq (env : Env) (path : U64) (value : Token) :
    XXHash env path value =
      (leafHash env value).map fun h => mixHash h.high64 h.low64 path := by
  unfold XXHash leafHash
  cases scalarBytes env value with
  | error e => rfl
  | ok bytes => cases bytes <;> rfl

variable (env : Env) (long : Bytes → XXH128Hash)

theorem leafHash_eq {t : Token} {v : Scalar} (h : ReadAs env t v) :
    leafHash env t = .ok (env.xxh3Bits128 (v.encoding env)) := by
  rw [leafHash, h.scalarBytes_eq]
  rfl

/-- **Scalars of short encodings are hashed alike only if they are fed alike.** -/
theorem leafHash_eq_iff (hxxh : env.xxh3Bits128 = bits128 long) {t t' : Token} {v w : Scalar}
    (h : ReadAs env t v) (h' : ReadAs env t' w)
    (hvw : Comparable 16 (v.encoding env) (w.encoding env)) :
    leafHash env t = leafHash env t' ↔ v.encoding env = w.encoding env := by
  rw [leafHash_eq env h, leafHash_eq env h', Except.ok.injEq, hxxh]
  constructor
  · exact bits128_inj hvw
  · intro hencoding
    rw [hencoding]

/-- **Integers never collide**: two signed 64-bit integers, in whatever notation, are hashed alike
exactly if they are equal. -/
theorem integers_hash_apart (hxxh : env.xxh3Bits128 = bits128 long) (t t' : Token) (n n' : Number)
    (z z' : ℤ) (h : ParsedAs env t n z) (h' : ParsedAs env t' n' z')
    (hz : -2 ^ 63 ≤ z ∧ z < 2 ^ 63) (hz' : -2 ^ 63 ≤ z' ∧ z' < 2 ^ 63) :
    leafHash env t = leafHash env t' ↔ z = z' := by
  have hform := canonical_of_int64 env h.value hz.1 hz.2
  have hform' := canonical_of_int64 env h'.value hz'.1 hz'.2
  have hcomparable : Comparable 16 ((Scalar.number n).encoding env)
      ((Scalar.number n').encoding env) := by
    refine .inl ⟨?_, ?_⟩
    · simp [Scalar.encoding, hform, hform', Canonical.bytes, intBytes]
    · simp [Scalar.encoding, hform, Canonical.bytes, intBytes]
  rw [leafHash_eq_iff env long hxxh (.number h) (.number h') hcomparable]
  show (canonical env n).bytes = (canonical env n').bytes ↔ z = z'
  rw [hform, hform']
  constructor
  · intro hbytes
    exact intBytes_injective ⟨hz.1, by omega⟩ ⟨hz'.1, by omega⟩ hbytes
  · rintro rfl
    rfl

/-- One, in two notations, and two. -/
theorem integers_hash_apart_one_two :
    let one : Number := ⟨1, .signedInteger⟩
    let oneE0 : Number := ⟨(Binary64.ofInt 1).bits, .floatingPointNumber⟩
    let two : Number := ⟨2, .signedInteger⟩
    let env := { Env.plain (.ofNumbers [([0x31], one), ([0x31, 0x65, 0x30], oneE0), ([0x32], two)])
      with xxh3Bits128 := bits128 fun _ => ⟨0, 0⟩ }
    leafHash env (.ofText [0x31]) = leafHash env (.ofText [0x31, 0x65, 0x30]) ∧
      leafHash env (.ofText [0x31]) ≠ leafHash env (.ofText [0x32]) := by
  intro one oneE0 two env
  have hvalue : (Binary64.ofInt 1).toRat = (1 : ℤ) :=
    Binary64.toRat_eq_intCast.mpr (by decide +kernel)
  have hone : ParsedAs env (.ofText [0x31]) one (1 : ℤ) := ⟨rfl, rfl, .signed 1⟩
  have hdouble : ParsedAs env (.ofText [0x31, 0x65, 0x30]) oneE0 (1 : ℤ) :=
    ⟨rfl, rfl, hvalue ▸ .double (by decide +kernel)⟩
  have htwo : ParsedAs env (.ofText [0x32]) two (2 : ℤ) := ⟨rfl, rfl, .signed 2⟩
  constructor
  · rw [integers_hash_apart env _ rfl _ _ _ _ _ _ hone hdouble (by decide) (by decide)]
  · rw [ne_eq, integers_hash_apart env _ rfl _ _ _ _ _ _ hone htwo (by decide) (by decide)]
    decide

end Dataprint.XXH3
