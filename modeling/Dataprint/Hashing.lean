import Dataprint.Foundations.Scrambling
import Dataprint.Policies
import Dataprint.Simdjson

/-!
# Hashing the Values of a Document

`hashBasicValues` (`src/processor.cpp`) walks a document with a path hash: an object key
or an array index is mixed into the hash of the path above it, and every scalar, every
`\x7b\x7d` and every `[]` emits one 128-bit hash to the accumulator of a policy.

The second half gives the walk a meaning that names no policy: `emissions` is the list of
hashes that a value emits, with the exception that ends the walk, if there is one.
`hashBasicValues_eq_emit` says that every policy is fed exactly this list, and `run_emit` what a
mergeable policy makes of it.
-/

namespace Dataprint

open Foundations

/-- `XXH128_hash_t`. -/
structure XXH128Hash where
  low64 : U64
  high64 : U64
  deriving DecidableEq, Repr

/-- What the hashing code takes from outside: simdjson, the two XXH3 functions of a byte
string, and the values C++ leaves open (a cast of a double that does not fit its target, a
variable that was never assigned). -/
structure Env where
  simd : Simdjson
  xxh3Bits64 : Bytes → U64
  xxh3Bits128 : Bytes → XXH128Hash
  castOverflow : Binary64 → U64
  unassigned : XXH128Hash

/-- An environment with a polynomial in the place of both hash functions, for examples. -/
def Env.plain (simd : Simdjson) : Env where
  simd := simd
  xxh3Bits64 bytes := bytes.foldl (fun h b => h * 31 + b.toBitVec.setWidth 64) 7
  xxh3Bits128 bytes := ⟨bytes.foldl (fun h b => h * 31 + b.toBitVec.setWidth 64) 7, 0⟩
  castOverflow _ := 0
  unassigned := ⟨0, 0⟩

/-! ## Mixing -/

def M1 : U64 := 0xff51afd7ed558ccd

def M2 : U64 := 0xc4ceb9fe1a85ec53

theorem M1_mul_inverse : M1 * 0x4f74430c22a54005 = 1 := by decide

theorem M2_mul_inverse : M2 * 0x9cb4b2f8129337db = 1 := by decide

/-- Mixes a 128-bit hash with a 64-bit integer. -/
def mixHash (hi lo b : U64) : XXH128Hash :=
  let hi := hi ^^^ b * M1
  let hi := hi ^^^ hi >>> 33
  let hi := hi * M1
  let hi := hi ^^^ hi >>> 32
  let lo := lo ^^^ b * M2
  let lo := lo ^^^ lo >>> 33
  let lo := lo * M2
  let lo := lo ^^^ lo >>> 32
  { low64 := hi ^^^ lo, high64 := hi * M2 ^^^ lo * M1 }

/-- `COMBINE_U128`. -/
def combineU128 (h : XXH128Hash) : U128 := makeUint128 h.high64 h.low64

/-- Each half of the hash is scrambled on its own before the halves are combined. -/
theorem mixHash_eq (hi lo b : U64) :
    let hi' := scramble 33 32 M1 (hi ^^^ b * M1)
    let lo' := scramble 33 32 M2 (lo ^^^ b * M2)
    mixHash hi lo b = { low64 := hi' ^^^ lo', high64 := hi' * M2 ^^^ lo' * M1 } := rfl

/-- Hashes that differ in the high half only are not mixed alike. -/
theorem combineU128_mixHash_injective (lo b : U64) :
    Function.Injective fun hi => combineU128 (mixHash hi lo b) := by
  intro hi hi' h
  have hlow : ∀ x : XXH128Hash, (combineU128 x).setWidth 64 = x.low64 := by
    intro x
    ext i
    simp [combineU128, makeUint128]
  have heq := congrArg (BitVec.setWidth 64) h
  simp only [hlow, mixHash_eq] at heq
  -- the scrambled low halves are equal, so they cancel
  have hscrambled := (BitVec.xor_left_inj _).mp heq
  exact (BitVec.xor_left_inj _).mp
    (scramble_injective (by decide) (by decide) M1_mul_inverse hscrambled)

/-! ## Bytes in memory -/

/-- The `n` low bytes of a number, least significant first. -/
def leBytes : ℕ → ℕ → Bytes
  | 0, _ => []
  | n + 1, x => UInt8.ofNat x :: leBytes n (x / 256)

@[simp] theorem length_leBytes (n x : ℕ) : (leBytes n x).length = n := by
  induction n generalizing x with
  | zero => rfl
  | succ n ih => rw [leBytes, List.length_cons, ih]

/-- The bytes of a number that fits determine it. -/
theorem leBytes_injective {n x y : ℕ} (hx : x < 256 ^ n) (hy : y < 256 ^ n)
    (h : leBytes n x = leBytes n y) : x = y := by
  induction n generalizing x y with
  | zero => omega
  | succ n ih =>
    rw [leBytes, leBytes, List.cons.injEq] at h
    obtain ⟨hlow, hrest⟩ := h
    have hmod : x % 256 = y % 256 := by
      have := congrArg UInt8.toNat hlow
      rwa [UInt8.toNat_ofNat', UInt8.toNat_ofNat'] at this
    have hdiv : x / 256 = y / 256 := by
      apply ih _ _ hrest
      · exact Nat.div_lt_of_lt_mul (by rwa [Nat.mul_comm, ← Nat.pow_succ])
      · exact Nat.div_lt_of_lt_mul (by rwa [Nat.mul_comm, ← Nat.pow_succ])
    omega

/-- The bytes of a word determine it. -/
theorem leBytes_toNat_injective {n w : ℕ} (hw : w ≤ 8 * n) {x y : BitVec w}
    (h : leBytes n x.toNat = leBytes n y.toNat) : x = y := by
  have hpow : 2 ^ w ≤ 256 ^ n := by
    rw [show (256 : ℕ) = 2 ^ 8 from rfl, ← Nat.pow_mul]
    exact Nat.pow_le_pow_right Nat.two_pos hw
  exact BitVec.eq_of_toNat_eq
    (leBytes_injective (x.isLt.trans_le hpow) (y.isLt.trans_le hpow) h)

/-- The 24 bytes of an `ArrayIndexPrefix`: an opening bracket, the index and a closing one. -/
def arrayIndexPrefix (index : U64) : Bytes :=
  leBytes 8 0x5b ++ leBytes 8 index.toNat ++ leBytes 8 0x5d

/-! ## Scalars -/

variable (env : Env)

/-- `static_cast<int64_t>(d)`. -/
def castInt64 (d : Binary64) : U64 :=
  if -2 ^ 63 ≤ d.trunc ∧ d.trunc < 2 ^ 63 then BitVec.ofInt 64 d.trunc else env.castOverflow d

/-- The bytes of a `double`. -/
def doubleBytes (d : Binary64) : Bytes := leBytes 8 d.bits.toNat

/-- The bytes of an `__int128_t` made from an `int64_t`. -/
def wideBytes (x : U64) : Bytes := leBytes 16 (x.signExtend 128).toNat

/-- The bytes that are hashed for a parsed number; none for the case that assigns no hash. -/
def numberBytes (num : Number) : Option Bytes :=
  match num.type with
  | .signedInteger => some (wideBytes num.payload)
  | .unsignedInteger => some (leBytes 16 (num.payload.setWidth 128).toNat)
  | .floatingPointNumber =>
    let d := num.getDouble
    -- the double is a whole number and is taken to fit
    if d.isWhole ∧ (Binary64.ofInt (-2 ^ 63)).le d ∧ d.le (Binary64.ofInt (2 ^ 63 - 1)) then
      some (wideBytes (castInt64 env d))
    else some (doubleBytes d)
  | .bigInteger => none

/-- The bytes that `XXHash` hands to `XXH3_128bits`. -/
def scalarBytes (value : Token) : Except Exn (Option Bytes) :=
  match value.type with
  | .string => do
    let str ← valueOrThrow (env.simd.getString value)
    return some str
  | .number =>
    -- on an error `num` keeps its default
    let (error, num) := getInto (env.simd.getNumber value) Number.default
    match error with
    -- too large for 64 bits: what is hashed is the default, read as a double
    | some .bigintError => return some (doubleBytes num.getDouble)
    | some e => throw (.runtimeError ("number parse error: " ++ errorMessage e))
    | none => return numberBytes env num
  | .boolean => do
    let b ← valueOrThrow (env.simd.getBool value)
    return some [if b then 1 else 0]
  -- null, by its first byte, and every token that starts like nothing else
  | _ => return some [0, 0]

/-- Hashes a scalar and mixes the path in. -/
def XXHash (path : U64) (value : Token) : Except Exn XXH128Hash := do
  let h := match ← scalarBytes env value with
    | some bytes => env.xxh3Bits128 bytes
    | none => env.unassigned
  return mixHash h.high64 h.low64 path

/-! ## The walk -/

/-- The hash that an empty object emits. -/
def emptyObjectHash : U128 := combineU128 (mixHash 1 1 0)

/-- The hash that an empty array emits. -/
def emptyArrayHash : U128 := combineU128 (mixHash 1 1 1)

/-- Runs a computation that may throw but keeps no state. -/
def ofExcept {σ α : Type} (r : Except Exn α) : EStateM Exn σ α :=
  match r with
  | .ok a => pure a
  | .error e => throw e

/-- Iteration past the last item: the end, or an error that is used as a value. -/
def endIteration {σ : Type} (err : Option ErrorCode) : EStateM Exn σ Unit :=
  match err with
  | none => pure ()
  | some e => throw (.simdjsonError e)

mutual

/-- Walks a value below the path `path`. -/
def hashBasicValues (P : Policy) : Element → U64 → EStateM Exn P.Accumulator Unit
  | .object fields err, path => do
    if isEmptyContainer fields err then
      P.accumulate emptyObjectHash
    hashFields P fields err path
  | .array children err, path => do
    if isEmptyContainer children err then
      P.accumulate emptyArrayHash
    hashChildren P children err path 0
  | .scalar token, path => do
    let h ← ofExcept (XXHash env path token)
    P.accumulate (combineU128 h)

/-- The loop over the fields of an object. -/
def hashFields (P : Policy) : List (Except ErrorCode Bytes × Element) → Option ErrorCode → U64 →
    EStateM Exn P.Accumulator Unit
  | [], err, _ => endIteration err
  | (key, value) :: rest, err, path => do
    let key ← ofExcept (valueOrThrow key)
    let keyHash := env.xxh3Bits64 key
    hashBasicValues P value (mix path keyHash)
    hashFields P rest err path

/-- The loop over the children of an array. -/
def hashChildren (P : Policy) : List Element → Option ErrorCode → U64 → U64 →
    EStateM Exn P.Accumulator Unit
  | [], err, _, _ => endIteration err
  | child :: rest, err, path, index => do
    let indexHash := env.xxh3Bits64 (arrayIndexPrefix index)
    hashBasicValues P child (mix path indexHash)
    hashChildren P rest err path (index + 1)

end

/-! ## What a walk emits -/

/-- The hashes emitted in order, and the exception that ends the walk early. -/
structure Emission where
  hashes : List U128
  error : Option Exn
  deriving DecidableEq

namespace Emission

/-- Nothing emitted. -/
def nil : Emission := ⟨[], none⟩

/-- One hash emitted. -/
def single (h : U128) : Emission := ⟨[h], none⟩

/-- A throw. -/
def fail (e : Exn) : Emission := ⟨[], some e⟩

/-- One walk after the other; nothing follows a throw. -/
def append (a b : Emission) : Emission :=
  match a.error with
  | none => ⟨a.hashes ++ b.hashes, b.error⟩
  | some _ => a

instance : Append Emission := ⟨append⟩

/-- After a walk that ends without a throw the next one goes on. -/
theorem append_none (hs : List U128) (b : Emission) :
    (⟨hs, none⟩ : Emission) ++ b = ⟨hs ++ b.hashes, b.error⟩ := rfl

/-- A throw hides what would come after it. -/
theorem append_some (hs : List U128) (e : Exn) (b : Emission) :
    (⟨hs, some e⟩ : Emission) ++ b = ⟨hs, some e⟩ := rfl

@[simp] theorem nil_append (a : Emission) : nil ++ a = a := rfl

@[simp] theorem append_nil (a : Emission) : a ++ nil = a := by
  obtain ⟨hs, e⟩ := a
  cases e with
  | none => simp only [append_none, nil, List.append_nil]
  | some e => rfl

theorem append_assoc (a b c : Emission) : a ++ b ++ c = a ++ (b ++ c) := by
  obtain ⟨hs, e⟩ := a
  obtain ⟨hs', e'⟩ := b
  cases e with
  | none =>
    cases e' with
    | none => simp only [append_none, List.append_assoc]
    | some e' => rfl
  | some e => rfl

/-- Both walks have to end. -/
theorem append_error_eq_none {a b : Emission} :
    (a ++ b).error = none ↔ a.error = none ∧ b.error = none := by
  obtain ⟨hs, e⟩ := a
  cases e with
  | none => simp [append_none]
  | some e => simp [append_some]

/-- What the first walk emits stays. -/
theorem append_hashes_ne_nil {a b : Emission} (h : a.hashes ≠ []) : (a ++ b).hashes ≠ [] := by
  obtain ⟨hs, e⟩ := a
  cases e with
  | none => exact List.append_ne_nil_of_left_ne_nil h _
  | some e => exact h

/-- One walk after the other over a list. -/
def concat (l : List Emission) (last : Emission) : Emission :=
  l.foldr (· ++ ·) last

@[simp] theorem concat_nil (last : Emission) : concat [] last = last := rfl

@[simp] theorem concat_cons (a : Emission) (l : List Emission) (last : Emission) :
    concat (a :: l) last = a ++ concat l last := rfl

/-- A sequence of walks throws exactly if one of them does. -/
theorem concat_error_eq_none {l : List Emission} :
    (concat l .nil).error = none ↔ ∀ a ∈ l, a.error = none := by
  induction l with
  | nil => simp [nil]
  | cons a l ih => rw [concat_cons, append_error_eq_none, List.forall_mem_cons, ih]

/-- If nothing throws, the hashes are those of all walks. -/
theorem concat_hashes {l : List Emission} (h : (concat l .nil).error = none) :
    (concat l .nil).hashes = l.flatMap Emission.hashes := by
  induction l with
  | nil => rfl
  | cons a l ih =>
    rw [concat_cons, append_error_eq_none] at h
    obtain ⟨hs, e⟩ := a
    cases h.1
    rw [concat_cons, List.flatMap_cons, ← ih h.2]
    rfl

end Emission

/-- The exception of a result that may have failed. -/
def ofEnd (err : Option ErrorCode) : Emission :=
  match err with
  | none => .nil
  | some e => .fail (.simdjsonError e)

mutual

/-- The hashes a value emits below the path `path`. -/
def emissions : Element → U64 → Emission
  | .object fields err, path =>
    (if isEmptyContainer fields err then .single emptyObjectHash else .nil) ++
      fieldsEmission fields err path
  | .array children err, path =>
    (if isEmptyContainer children err then .single emptyArrayHash else .nil) ++
      childrenEmission children err path 0
  | .scalar token, path =>
    match XXHash env path token with
    | .ok h => .single (combineU128 h)
    | .error e => .fail e

def fieldsEmission : List (Except ErrorCode Bytes × Element) → Option ErrorCode → U64 → Emission
  | [], err, _ => ofEnd err
  | (.ok key, value) :: rest, err, path =>
    emissions value (mix path (env.xxh3Bits64 key)) ++ fieldsEmission rest err path
  | (.error e, _) :: _, _, _ => .fail (.simdjsonError e)

def childrenEmission : List Element → Option ErrorCode → U64 → U64 → Emission
  | [], err, _, _ => ofEnd err
  | child :: rest, err, path, index =>
    emissions child (mix path (env.xxh3Bits64 (arrayIndexPrefix index))) ++
      childrenEmission rest err path (index + 1)

end

/-- **Every value counts**: a walk that does not throw emits a hash. -/
theorem emissions_hashes_ne_nil : ∀ (e : Element) (path : U64),
    (emissions env e path).error = none → (emissions env e path).hashes ≠ []
  | .object [] err, path, h => by
    cases err with
    | none => simp [emissions, fieldsEmission, isEmptyContainer, ofEnd, Emission.single]
    | some e => simp [emissions, fieldsEmission, isEmptyContainer, ofEnd, Emission.fail] at h
  | .object ((.error e, _) :: rest) err, path, h => by
    simp [emissions, fieldsEmission, isEmptyContainer, Emission.fail] at h
  | .object ((.ok key, value) :: rest) err, path, h => by
    -- the first field is walked in any case
    simp only [emissions, fieldsEmission, isEmptyContainer, List.isEmpty_cons, Bool.false_and,
      Bool.false_eq_true, if_false, Emission.nil_append] at h ⊢
    exact Emission.append_hashes_ne_nil
      (emissions_hashes_ne_nil value _ (Emission.append_error_eq_none.mp h).1)
  | .array [] err, path, h => by
    cases err with
    | none => simp [emissions, childrenEmission, isEmptyContainer, ofEnd, Emission.single]
    | some e => simp [emissions, childrenEmission, isEmptyContainer, ofEnd, Emission.fail] at h
  | .array (child :: rest) err, path, h => by
    simp only [emissions, childrenEmission, isEmptyContainer, List.isEmpty_cons, Bool.false_and,
      Bool.false_eq_true, if_false, Emission.nil_append] at h ⊢
    exact Emission.append_hashes_ne_nil
      (emissions_hashes_ne_nil child _ (Emission.append_error_eq_none.mp h).1)
  | .scalar token, path, h => by
    rw [emissions] at h ⊢
    cases hhash : XXHash env path token with
    | ok x => simp [Emission.single]
    | error e => simp [hhash, Emission.fail] at h

/-- Feeds an emission to a policy. -/
def emit (P : Policy) (x : Emission) : EStateM Exn P.Accumulator Unit := do
  forM x.hashes P.accumulate
  match x.error with
  | none => pure ()
  | some e => throw e

@[simp] theorem emit_nil (P : Policy) : emit P .nil = pure () := rfl

@[simp] theorem emit_single (P : Policy) (h : U128) : emit P (.single h) = P.accumulate h := by
  simp [emit, Emission.single]

/-- Feeding two walks one after the other is feeding them together. -/
theorem emit_append (P : Policy) (a b : Emission) :
    emit P (a ++ b) = emit P a >>= fun _ => emit P b := by
  obtain ⟨hs, e⟩ := a
  cases e with
  | none => simp [Emission.append_none, emit]
  | some e =>
    -- the throw cuts off whatever follows it
    have hcut : (throw e : EStateM Exn P.Accumulator Unit) =
        (throw e : EStateM Exn P.Accumulator Unit) >>= fun _ => emit P b := rfl
    rw [Emission.append_some, emit, emit, bind_assoc]
    exact congrArg _ (funext fun _ => hcut)

theorem emit_ofEnd (P : Policy) (err : Option ErrorCode) : emit P (ofEnd err) = endIteration err := by
  cases err <;> rfl

mutual

/-- **Every policy is fed exactly the emissions of the value.** -/
theorem hashBasicValues_eq_emit (P : Policy) : ∀ (e : Element) (path : U64),
    hashBasicValues env P e path = emit P (emissions env e path)
  | .object fields err, path => by
    rw [hashBasicValues, emissions, emit_append, hashFields_eq_emit P fields err path]
    split <;> simp
  | .array children err, path => by
    rw [hashBasicValues, emissions, emit_append, hashChildren_eq_emit P children err path 0]
    split <;> simp
  | .scalar token, path => by
    rw [hashBasicValues, emissions]
    cases XXHash env path token <;> simp [ofExcept]
    rfl

theorem hashFields_eq_emit (P : Policy) :
    ∀ (fields : List (Except ErrorCode Bytes × Element)) (err : Option ErrorCode) (path : U64),
      hashFields env P fields err path = emit P (fieldsEmission env fields err path)
  | [], err, path => by rw [hashFields, fieldsEmission, emit_ofEnd]
  | (.ok key, value) :: rest, err, path => by
    rw [hashFields, fieldsEmission, emit_append, hashFields_eq_emit P rest err path]
    rw [← hashBasicValues_eq_emit P value]
    rfl
  | (.error e, _) :: rest, err, path => by
    rw [hashFields, fieldsEmission]
    rfl

theorem hashChildren_eq_emit (P : Policy) :
    ∀ (children : List Element) (err : Option ErrorCode) (path index : U64),
      hashChildren env P children err path index =
        emit P (childrenEmission env children err path index)
  | [], err, path, index => by rw [hashChildren, childrenEmission, emit_ofEnd]
  | child :: rest, err, path, index => by
    rw [hashChildren, childrenEmission, emit_append, hashChildren_eq_emit P rest err path]
    rw [← hashBasicValues_eq_emit P child]

end

/-! ## Sequences of documents -/

/-- Every document is walked from the empty path into one accumulator. -/
def hashDocuments (P : Policy) (docs : List Element) : EStateM Exn P.Accumulator Unit :=
  forM docs fun doc => hashBasicValues env P doc 0

/-- What a sequence of documents emits. -/
def documentsEmission (docs : List Element) : Emission :=
  Emission.concat (docs.map fun doc => emissions env doc 0) .nil

theorem hashDocuments_eq_emit (P : Policy) (docs : List Element) :
    hashDocuments env P docs = emit P (documentsEmission env docs) := by
  unfold hashDocuments documentsEmission
  induction docs with
  | nil => rfl
  | cons doc docs ih =>
    rw [List.map_cons, Emission.concat_cons, emit_append, ← ih, ← hashBasicValues_eq_emit]
    rfl

theorem documentsEmission_cons (doc : Element) (docs : List Element) :
    documentsEmission env (doc :: docs) = emissions env doc 0 ++ documentsEmission env docs := rfl

/-- Feeding a mergeable policy: the hashes if nothing throws, the exception otherwise. -/
theorem run_emit {P : Policy} {R : Multiset U128 → P.Accumulator → Prop}
    (hP : Mergeable P.init P.accumulate P.reduce R) (x : Emission) {m : Multiset U128}
    {s : P.Accumulator} (hs : R m s) :
    ∃ s', R (m + x.hashes) s' ∧ (emit P x).run s = match x.error with
      | none => .ok () s'
      | some e => .error e s' := by
  obtain ⟨s', hrun, hrep⟩ := hP.accumulate_list x.hashes hs
  refine ⟨s', hrep, ?_⟩
  rw [emit, EStateM.run_bind, hrun]
  cases x.error <;> rfl

end Dataprint
