import Dataprint.Numbers

/-!
# Telling the Types of Scalars Apart

`XXHash` feeds the bytes of a scalar without a tag for its type (`src/processor.cpp`).  The
encodings of numbers, booleans and null differ in their lengths, so they never meet; a
string is fed as it is, and may be any of them.

- `Scalar` is what a token is read as, and `ReadAs.scalarBytes_eq` the bytes it is fed as;
- `sameKind_of_encoding_eq` keeps the types other than strings apart;
- `scalar_types_apart` says exactly when two scalars of different types are fed alike.
-/

namespace Dataprint

open Foundations

/-- A scalar as its typed getter reads it. -/
inductive Scalar where
  | string (s : Bytes)
  | number (n : Number)
  /-- an integer of more than 64 bits -/
  | bigInteger
  | boolean (b : Bool)
  | null
  deriving DecidableEq

def Scalar.type : Scalar → JsonType
  | .string _ => .string
  | .number _ => .number
  | .bigInteger => .number
  | .boolean _ => .boolean
  | .null => .null

variable (env : Env)

/-- simdjson reads a token as this scalar. -/
inductive ReadAs (t : Token) : Scalar → Prop where
  | string {s : Bytes} : t.type = .string → env.simd.getString t = .ok s → ReadAs t (.string s)
  | number {n : Number} {q : ℚ} : ParsedAs env t n q → ReadAs t (.number n)
  | bigInteger : t.type = .number → env.simd.getNumber t = .error .bigintError →
      ReadAs t .bigInteger
  | boolean {b : Bool} : t.type = .boolean → env.simd.getBool t = .ok b → ReadAs t (.boolean b)
  | null : t.text = nullText → ReadAs t .null

/-- The bytes a scalar is hashed as. -/
def Scalar.encoding : Scalar → Bytes
  | .string s => s
  | .number n => (canonical env n).bytes
  | .bigInteger => doubleBytes ⟨0⟩
  | .boolean b => [if b then 1 else 0]
  | .null => [0, 0]

theorem ReadAs.scalarBytes_eq {t : Token} {v : Scalar} (h : ReadAs env t v) :
    scalarBytes env t = .ok (some (v.encoding env)) := by
  cases h with
  | string htype hget | boolean htype hget =>
    unfold scalarBytes
    rw [htype]
    simp only [hget]
    rfl
  | number hparsed => rw [hparsed.scalarBytes_eq, numberBytes_eq env hparsed.value]; rfl
  | bigInteger htype hget =>
    -- the error is passed over, and the number still has its default
    unfold scalarBytes
    rw [htype]
    simp only [hget, getInto]
    rfl
  | null htext =>
    have htype : t.type = .null := by rw [Token.type, htext]; rfl
    unfold scalarBytes
    rw [htype]
    rfl

/-- How long the encodings of a type are; strings have any length. -/
def Scalar.lengths : Scalar → List ℕ
  | .string s => [s.length]
  | .number _ => [8, 16]
  | .bigInteger => [8, 16]
  | .boolean _ => [1]
  | .null => [2]

theorem Scalar.length_encoding (v : Scalar) : (v.encoding env).length ∈ v.lengths := by
  cases v with
  | string s => exact List.mem_singleton_self _
  | number n =>
    show (canonical env n).bytes.length ∈ [8, 16]
    cases canonical env n <;> simp [Canonical.bytes, intBytes, doubleBytes]
  | bigInteger => simp [Scalar.encoding, Scalar.lengths, doubleBytes]
  | boolean b => exact List.mem_singleton_self _
  | null => exact List.mem_singleton_self _

/-- Two scalars that are no strings have one type if their encodings may be of one length. -/
theorem type_eq_of_mem_lengths {v w : Scalar} (hv : v.type ≠ .string) (hw : w.type ≠ .string)
    {n : ℕ} (h : n ∈ v.lengths) (h' : n ∈ w.lengths) : v.type = w.type := by
  cases v with
  | string s => exact absurd rfl hv
  | number _ | bigInteger | boolean _ | null =>
    cases w with
    | string s => exact absurd rfl hw
    | number _ | bigInteger | boolean _ | null =>
      -- 8 or 16 for numbers, 1 for booleans and 2 for null
      simp [Scalar.lengths, Scalar.type] at h h' ⊢ <;> omega

/-- One JSON type, and for strings and booleans one value. -/
def Scalar.SameKind (v w : Scalar) : Prop :=
  v.type = w.type ∧ (v.type = .string ∨ v.type = .boolean → v = w)

/-- **The types other than strings are kept apart** by the lengths of their encodings. -/
theorem sameKind_of_encoding_eq {v w : Scalar} (hv : v.type ≠ .string) (hw : w.type ≠ .string)
    (h : v.encoding env = w.encoding env) : v.SameKind w := by
  have hlength := v.length_encoding env
  rw [h] at hlength
  have htype := type_eq_of_mem_lengths hv hw hlength (w.length_encoding env)
  refine ⟨htype, ?_⟩
  rintro (hstring | hboolean)
  · exact absurd hstring hv
  · rw [hboolean] at htype
    cases v with
    | boolean b =>
      cases w with
      -- the byte is the value
      | boolean b' => cases b <;> cases b' <;> simp [Scalar.encoding] at h ⊢
      | string _ | number _ | bigInteger | null => cases htype
    | string _ | number _ | bigInteger | null => cases hboolean

/-- A string of exactly the bytes that a scalar of another type is hashed as. -/
def Scalar.Imitates (v w : Scalar) : Prop :=
  v = .string (w.encoding env) ∧ w.type ≠ .string

theorem eq_string_of_type {v : Scalar} (h : v.type = .string) : v = .string (v.encoding env) := by
  cases v with
  | string s => rfl
  | number _ | bigInteger | boolean _ | null => cases h

/-- Between a string and another scalar, imitation is all there is to equal encodings. -/
theorem imitates_iff {v w : Scalar} (hv : v.type = .string) (hw : w.type ≠ .string) :
    v.Imitates env w ↔ v.encoding env = w.encoding env := by
  constructor
  · rintro ⟨rfl, -⟩
    rfl
  · intro heq
    refine ⟨?_, hw⟩
    rw [← heq]
    exact eq_string_of_type env hv

/-- Only strings imitate. -/
theorem not_imitates {v w : Scalar} (h : v.type = .string → w.type = .string) :
    ¬ v.Imitates env w := by
  rintro ⟨rfl, hw⟩
  exact hw (h rfl)

/-- **When scalars of different types look alike**: two scalars that feed the same bytes have one
type, and as strings or booleans one value, unless one is a string that imitates the other. -/
theorem scalar_types_apart (t t' : Token) (v w : Scalar) (h : ReadAs env t v)
    (h' : ReadAs env t' w) :
    (scalarBytes env t = scalarBytes env t' → v.SameKind w) ↔
      ¬ v.Imitates env w ∧ ¬ w.Imitates env v := by
  rw [h.scalarBytes_eq, h'.scalarBytes_eq, Except.ok.injEq, Option.some.injEq]
  by_cases hv : v.type = .string
  · by_cases hw : w.type = .string
    · -- two strings are fed as they are
      refine iff_of_true (fun heq => ⟨hv.trans hw.symm, fun _ => ?_⟩)
        ⟨not_imitates env fun _ => hw, not_imitates env fun _ => hv⟩
      rw [eq_string_of_type env hv, eq_string_of_type env hw, heq]
    · have hkind : ¬ v.SameKind w := fun hkind => hw (hkind.1 ▸ hv)
      rw [imitates_iff env hv hw]
      exact ⟨fun himp => ⟨fun heq => hkind (himp heq), not_imitates env fun h => absurd h hw⟩,
        fun hno heq => absurd heq hno.1⟩
  · by_cases hw : w.type = .string
    · have hkind : ¬ v.SameKind w := fun hkind => hv (hkind.1.symm ▸ hw)
      rw [imitates_iff env hw hv]
      exact ⟨fun himp => ⟨not_imitates env fun h => absurd h hv, fun heq => hkind (himp heq.symm)⟩,
        fun hno heq => absurd heq.symm hno.2⟩
    · -- neither is a string
      exact iff_of_true (sameKind_of_encoding_eq env hv hw)
        ⟨not_imitates env fun h => absurd h hv, not_imitates env fun h => absurd h hw⟩

/-- The tokens `true` and `null`. -/
theorem scalar_types_apart_literals :
    let env := Env.plain (.ofNumbers [])
    scalarBytes env (.ofText trueText) ≠
      scalarBytes env (.ofText nullText) := by
  intro env heq
  have htrue : ReadAs env (.ofText trueText) (.boolean true) :=
    .boolean rfl rfl
  have hnull : ReadAs env (.ofText nullText) .null := .null rfl
  have hkind := (scalar_types_apart env _ _ _ _ htrue hnull).mpr
    ⟨fun him => (nomatch him.1), fun him => (nomatch him.1)⟩ heq
  cases hkind.1

/-- The string `"AAAAAAAA"` feeds the bytes of the number `2261634.5098039214`. -/
theorem string_imitates_number :
    let double : Binary64 := ⟨0x4141414141414141⟩
    let digits : Bytes := [0x32, 0x32, 0x36, 0x31, 0x36, 0x33, 0x34, 0x2e, 0x35, 0x30, 0x39, 0x38,
      0x30, 0x33, 0x39, 0x32, 0x31, 0x34]
    let n : Number := ⟨double.bits, .floatingPointNumber⟩
    let env := Env.plain (.ofNumbers [(digits, n)])
    let s : Bytes := List.replicate 8 0x41
    ReadAs env (.ofText (0x22 :: s ++ [0x22])) (.string s) ∧
    ReadAs env (.ofText digits) (.number n) ∧
    scalarBytes env (.ofText (0x22 :: s ++ [0x22])) = scalarBytes env (.ofText digits) ∧
    ¬ (Scalar.string s).SameKind (.number n) := by
  intro double digits n env s
  have hstring : ReadAs env (.ofText (0x22 :: s ++ [0x22])) (.string s) := .string rfl rfl
  have hnumber : ReadAs env (.ofText digits) (.number n) :=
    .number ⟨rfl, rfl, .double (by decide +kernel)⟩
  refine ⟨hstring, hnumber, ?_, fun hkind => by cases hkind.1⟩
  rw [hstring.scalarBytes_eq, hnumber.scalarBytes_eq]
  decide +kernel

end Dataprint
