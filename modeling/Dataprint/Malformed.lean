import Dataprint.NumberParsing
import Dataprint.Positions

/-!
# Malformed Tokens

simdjson finds the tokens of a document by their first bytes and checks the rest of a token only
in a typed getter.  `XXHash` calls a getter for strings, numbers and booleans; its last branch,
for null and for tokens that start like nothing at all, calls none (`src/processor.cpp`).

- `Token.isWellFormed` is the grammar of JSON scalars, and `Validates` what is assumed of the
  getters: they accept nothing else;
- `Refused` and `RefusedBefore` say by what in a document, or before a position, a walk is stopped;
- `malformed_token_refused` says exactly when a malformed token is refused, at any position.
-/

namespace Dataprint

/-! ## The grammar of scalars -/

def isHexDigit (b : UInt8) : Bool :=
  isDigit b || (0x41 ≤ b && b ≤ 0x46) || (0x61 ≤ b && b ≤ 0x66)

/-- Where a scan of a string is: in plain text, behind a backslash, or in the hexadecimal
digits of an escape. -/
inductive StringState where
  | text
  | escape
  | hex (left : ℕ)

/-- The text of a string from some state up to its closing quote, which ends the token. -/
def scanString : StringState → Bytes → Bool
  | _, [] => false
  | .text, b :: rest =>
    if b == 0x22 then rest.isEmpty
    else if b == 0x5c then scanString .escape rest
    else 0x20 ≤ b && scanString .text rest
  | .escape, b :: rest =>
    if b == 0x75 then scanString (.hex 3) rest
    else [0x22, 0x5c, 0x2f, 0x62, 0x66, 0x6e, 0x72, 0x74].contains b && scanString .text rest
  | .hex 0, b :: rest => isHexDigit b && scanString .text rest
  | .hex (left + 1), b :: rest => isHexDigit b && scanString (.hex left) rest

def isStringText : Bytes → Bool
  | [] => false
  | b :: rest => b == 0x22 && scanString .text rest

def isBooleanText (text : Bytes) : Bool := text == trueText || text == falseText

/-- A JSON string, number, `true`, `false` or `null`. -/
def Token.isWellFormed (t : Token) : Bool :=
  isStringText t.text || isNumberText t.text || isBooleanText t.text ||
    t.text == nullText

/-- **What is assumed of the typed getters**: they accept well-formed tokens only, and answer
`BIGINT_ERROR` where `parse_number` does. -/
structure Validates (simd : Simdjson) : Prop where
  getString : ∀ t s, simd.getString t = .ok s → isStringText t.text = true
  getNumber : ∀ t n, simd.getNumber t = .ok n → isNumberText t.text = true
  bigInteger : ∀ t, simd.getNumber t = .error .bigintError ↔ startsBigInteger t.text = true
  getBool : ∀ t b, simd.getBool t = .ok b → isBooleanText t.text = true

/-! ## What stops a walk -/

variable (env : Env)

/-- Something in the value is refused: a token by its getter, a key, or the end of a container. -/
inductive Refused : Element → Prop where
  | string {t : Token} {e : ErrorCode} :
      t.type = .string → env.simd.getString t = .error e → Refused (.scalar t)
  /-- a big integer is no error -/
  | number {t : Token} {e : ErrorCode} :
      t.type = .number → env.simd.getNumber t = .error e → e ≠ .bigintError → Refused (.scalar t)
  | boolean {t : Token} {e : ErrorCode} :
      t.type = .boolean → env.simd.getBool t = .error e → Refused (.scalar t)
  | key {fields : List (Except ErrorCode Bytes × Element)} {err : Option ErrorCode}
      {e : ErrorCode} {value : Element} : (.error e, value) ∈ fields → Refused (.object fields err)
  | member {fields : List (Except ErrorCode Bytes × Element)} {err : Option ErrorCode}
      {key : Except ErrorCode Bytes} {value : Element} :
      (key, value) ∈ fields → Refused value → Refused (.object fields err)
  | element {children : List Element} {err : Option ErrorCode} {child : Element} :
      child ∈ children → Refused child → Refused (.array children err)
  | objectEnd {fields : List (Except ErrorCode Bytes × Element)} {e : ErrorCode} :
      Refused (.object fields (some e))
  | arrayEnd {children : List Element} {e : ErrorCode} : Refused (.array children (some e))

/-- Something before the hole is refused, so that the walk does not reach it. -/
inductive RefusedBefore : Context → Prop where
  | members {pre post : List (Except ErrorCode Bytes × Element)} {key : Except ErrorCode Bytes}
      {inside : Context} {err : Option ErrorCode} :
      Refused env (.object pre none) → RefusedBefore (.member pre key inside post err)
  | key {pre post : List (Except ErrorCode Bytes × Element)} {e : ErrorCode}
      {inside : Context} {err : Option ErrorCode} :
      RefusedBefore (.member pre (.error e) inside post err)
  | member {pre post : List (Except ErrorCode Bytes × Element)} {key : Except ErrorCode Bytes}
      {inside : Context} {err : Option ErrorCode} :
      RefusedBefore inside → RefusedBefore (.member pre key inside post err)
  | elements {pre post : List Element} {inside : Context} {err : Option ErrorCode} :
      Refused env (.array pre none) → RefusedBefore (.element pre inside post err)
  | element {pre post : List Element} {inside : Context} {err : Option ErrorCode} :
      RefusedBefore inside → RefusedBefore (.element pre inside post err)

theorem refused_object_cons {key : Bytes} {value : Element}
    {rest : List (Except ErrorCode Bytes × Element)} {err : Option ErrorCode} :
    Refused env (.object ((.ok key, value) :: rest) err) ↔
      Refused env value ∨ Refused env (.object rest err) := by
  constructor
  · intro h
    cases h with
    | key hmem =>
      rcases List.mem_cons.mp hmem with heq | hmem
      · cases heq
      · exact .inr (.key hmem)
    | member hmem hvalue =>
      rcases List.mem_cons.mp hmem with heq | hmem
      · cases heq
        exact .inl hvalue
      · exact .inr (.member hmem hvalue)
    | objectEnd => exact .inr .objectEnd
  · rintro (hvalue | hrest)
    · exact .member List.mem_cons_self hvalue
    · cases hrest with
      | key hmem => exact .key (List.mem_cons_of_mem _ hmem)
      | member hmem hvalue => exact .member (List.mem_cons_of_mem _ hmem) hvalue
      | objectEnd => exact .objectEnd

theorem refused_array_cons {child : Element} {rest : List Element} {err : Option ErrorCode} :
    Refused env (.array (child :: rest) err) ↔
      Refused env child ∨ Refused env (.array rest err) := by
  constructor
  · intro h
    cases h with
    | element hmem hchild =>
      rcases List.mem_cons.mp hmem with rfl | hmem
      · exact .inl hchild
      · exact .inr (.element hmem hchild)
    | arrayEnd => exact .inr .arrayEnd
  · rintro (hchild | hrest)
    · exact .element List.mem_cons_self hchild
    · cases hrest with
      | element hmem hchild => exact .element (List.mem_cons_of_mem _ hmem) hchild
      | arrayEnd => exact .arrayEnd

/-- A scalar is refused exactly if hashing it throws. -/
theorem scalarBytes_error_iff (t : Token) :
    (∃ x, scalarBytes env t = .error x) ↔ Refused env (.scalar t) := by
  constructor
  · rintro ⟨x, hx⟩
    unfold scalarBytes at hx
    split at hx
    case h_1 htype =>
      cases hget : env.simd.getString t with
      | ok s => rw [hget] at hx; cases hx
      | error e => exact .string htype hget
    case h_2 htype =>
      cases hget : env.simd.getNumber t with
      | ok n => rw [hget] at hx; cases hx
      | error e =>
        refine .number htype hget ?_
        -- of a big integer the default is hashed
        rintro rfl
        rw [hget] at hx
        cases hx
    case h_3 htype =>
      cases hget : env.simd.getBool t with
      | ok b => rw [hget] at hx; cases hx
      | error e => exact .boolean htype hget
    -- the last branch asks no getter
    case h_4 => cases hx
  · intro h
    unfold scalarBytes
    cases h with
    | string htype hget => rw [htype]; simp only [hget]; exact ⟨_, rfl⟩
    | @number _ e htype hget hne =>
      rw [htype]
      simp only [hget, getInto]
      cases e <;> first | exact absurd rfl hne | exact ⟨_, rfl⟩
    | boolean htype hget => rw [htype]; simp only [hget]; exact ⟨_, rfl⟩

theorem XXHash_error_iff (t : Token) (path : U64) :
    (∃ x, XXHash env path t = .error x) ↔ Refused env (.scalar t) := by
  rw [← scalarBytes_error_iff, XXHash]
  cases scalarBytes env t with
  | ok bytes => exact iff_of_false (fun ⟨x, hx⟩ => by cases hx) (fun ⟨x, hx⟩ => by cases hx)
  | error x => exact iff_of_true ⟨x, rfl⟩ ⟨x, rfl⟩

theorem append_error_ne_none {a b : Emission} :
    (a ++ b).error ≠ none ↔ a.error ≠ none ∨ b.error ≠ none := by
  rw [ne_eq, Emission.append_error_eq_none, not_and_or]

mutual

/-- **A walk throws exactly if it meets something that is refused**, at whatever path. -/
theorem emissions_error_iff : ∀ (e : Element) (path : U64),
    (emissions env e path).error ≠ none ↔ Refused env e
  | .object fields err, path => by
    have hempty : ¬ (if isEmptyContainer fields err then Emission.single emptyObjectHash
        else .nil).error ≠ none := by split <;> exact not_not.mpr rfl
    rw [emissions, append_error_ne_none, or_iff_right hempty]
    exact fieldsEmission_error_iff fields err path
  | .array children err, path => by
    have hempty : ¬ (if isEmptyContainer children err then Emission.single emptyArrayHash
        else .nil).error ≠ none := by split <;> exact not_not.mpr rfl
    rw [emissions, append_error_ne_none, or_iff_right hempty]
    exact childrenEmission_error_iff children err path 0
  | .scalar t, path => by
    rw [emissions, ← XXHash_error_iff env t path]
    cases XXHash env path t with
    | ok h => exact iff_of_false (not_not.mpr rfl) fun ⟨x, hx⟩ => by cases hx
    | error x => exact iff_of_true (Option.some_ne_none x) ⟨x, rfl⟩

theorem fieldsEmission_error_iff : ∀ (fields : List (Except ErrorCode Bytes × Element))
    (err : Option ErrorCode) (path : U64),
    (fieldsEmission env fields err path).error ≠ none ↔ Refused env (.object fields err)
  | [], none, path => by
    refine iff_of_false (not_not.mpr rfl) fun h => ?_
    cases h with
    | key hmem => cases hmem
    | member hmem => cases hmem
  | [], some e, path => iff_of_true (Option.some_ne_none _) .objectEnd
  | (.ok key, value) :: rest, err, path => by
    rw [fieldsEmission, append_error_ne_none, refused_object_cons, emissions_error_iff value,
      fieldsEmission_error_iff rest]
  | (.error e, value) :: rest, err, path =>
    iff_of_true (Option.some_ne_none _) (.key List.mem_cons_self)

theorem childrenEmission_error_iff : ∀ (children : List Element) (err : Option ErrorCode)
    (path index : U64),
    (childrenEmission env children err path index).error ≠ none ↔ Refused env (.array children err)
  | [], none, path, index => by
    refine iff_of_false (not_not.mpr rfl) fun h => ?_
    cases h with
    | element hmem => cases hmem
  | [], some e, path, index => iff_of_true (Option.some_ne_none _) .arrayEnd
  | child :: rest, err, path, index => by
    rw [childrenEmission, append_error_ne_none, refused_array_cons, emissions_error_iff child,
      childrenEmission_error_iff rest]

end

/-- **The walk is stopped before a position** exactly if something is refused there. -/
theorem before_error_iff (ctx : Context) (path : U64) :
    (ctx.before env path).error ≠ none ↔ RefusedBefore env ctx := by
  induction ctx generalizing path with
  | hole => exact iff_of_false (not_not.mpr rfl) fun h => nomatch h
  | member pre key inside post err ih =>
    cases key with
    | ok key =>
      rw [Context.before, append_error_ne_none, fieldsEmission_error_iff, ih]
      constructor
      · rintro (hpre | hinside)
        · exact .members hpre
        · exact .member hinside
      · intro h
        cases h with
        | members hpre => exact .inl hpre
        | member hinside => exact .inr hinside
    | error e =>
      rw [Context.before, append_error_ne_none]
      exact iff_of_true (.inr (Option.some_ne_none _)) .key
  | element pre inside post err ih =>
    rw [Context.before, append_error_ne_none, childrenEmission_error_iff, ih]
    constructor
    · rintro (hpre | hinside)
      · exact .elements hpre
      · exact .element hinside
    · intro h
      cases h with
      | elements hpre => exact .inl hpre
      | element hinside => exact .inr hinside

/-! ## Tokens at a position -/

/-- The walk of a document throws, with nothing accumulated but the hashes of what stands before
the token in the hole. -/
def RefusedAt (ctx : Context) (t : Token) : Prop :=
  ∃ x, (hashBasicValues env recordPolicy (ctx.plug (.scalar t)) 0).run [] =
    .error x (ctx.before env 0).hashes

/-- No hash of a token is accumulated exactly if it is refused, or something before it is. -/
theorem refusedAt_iff (ctx : Context) (t : Token) :
    RefusedAt env ctx t ↔ Refused env (.scalar t) ∨ RefusedBefore env ctx := by
  rw [RefusedAt, run_record, emissions_plug, ← before_error_iff env ctx 0,
    ← XXHash_error_iff env t (ctx.path env 0), emissions]
  simp only [Emission.result_eq_error]
  generalize ctx.before env 0 = b
  obtain ⟨hashes, err⟩ := b
  cases err with
  -- the walk does not reach the token
  | some x => exact iff_of_true ⟨x, rfl⟩ (.inr (Option.some_ne_none x))
  | none =>
    cases XXHash env (ctx.path env 0) t with
    | error x =>
      refine iff_of_true ⟨x, ?_⟩ (.inl ⟨x, rfl⟩)
      rw [Emission.append_none]
      exact congrArg (Emission.mk · (some x)) (List.append_nil hashes)
    | ok h =>
      refine iff_of_false ?_ ?_
      · rintro ⟨x, hx⟩
        -- the hash of the token stands behind those before it
        have hhashes : hashes ++ combineU128 h :: (ctx.after env 0).hashes = hashes :=
          congrArg Emission.hashes hx
        simp at hhashes
      · rintro (⟨x, hx⟩ | hsome)
        · cases hx
        · exact hsome rfl

/-- What its getter refuses, a malformed token of a type with a getter is refused for.  Only a
number that starts like a big integer passes. -/
theorem refused_malformed_iff (hsimd : Validates env.simd) {t : Token}
    (hbad : t.isWellFormed = false) :
    Refused env (.scalar t) ↔
      t.type = .string ∨ t.type = .number ∧ startsBigInteger t.text = false ∨
        t.type = .boolean := by
  simp only [Token.isWellFormed, Bool.or_eq_false_iff] at hbad
  obtain ⟨⟨⟨hstring, hnumber⟩, hboolean⟩, -⟩ := hbad
  constructor
  · intro h
    cases h with
    | string htype => exact .inl htype
    | number htype hget hne =>
      refine .inr (.inl ⟨htype, Bool.eq_false_iff.mpr fun hbig => hne ?_⟩)
      exact Except.error.inj (hget.symm.trans ((hsimd.bigInteger t).mpr hbig))
    | boolean htype => exact .inr (.inr htype)
  · rintro (htype | ⟨htype, hsmall⟩ | htype)
    · cases hget : env.simd.getString t with
      | ok s => simp [hsimd.getString t s hget] at hstring
      | error e => exact .string htype hget
    · cases hget : env.simd.getNumber t with
      | ok n => simp [hsimd.getNumber t n hget] at hnumber
      | error e =>
        refine .number htype hget ?_
        rintro rfl
        cases ((hsimd.bigInteger t).mp hget).symm.trans hsmall
    · cases hget : env.simd.getBool t with
      | ok b => simp [hsimd.getBool t b hget] at hboolean
      | error e => exact .boolean htype hget

/-- **When a malformed token is never hashed**: at any position of any document, the walk throws
instead of accumulating a hash for it exactly if its first byte makes it a string, a boolean or a
number that does not start like a big integer, or something before it is refused already. -/
theorem malformed_token_refused (hsimd : Validates env.simd) (ctx : Context) (t : Token)
    (hbad : t.isWellFormed = false) :
    RefusedAt env ctx t ↔
      (t.type = .string ∨ t.type = .number ∧ startsBigInteger t.text = false ∨
        t.type = .boolean) ∨ RefusedBefore env ctx := by
  rw [refusedAt_iff, refused_malformed_iff env hsimd hbad]

/-- A parser that knows literals and integers, for examples. -/
def Simdjson.literals : Simdjson :=
  { Simdjson.refusing with
    getNumber := fun t => (parseNumber (fun _ => none) t.text).bind fun n =>
      if IsTokenText t.text then .ok n else .error .numberError
    getBool := fun t =>
      if isBooleanText t.text then .ok (t.text.head? == some 0x74) else .error .incorrectType }

theorem Simdjson.literals_validates : Validates Simdjson.literals where
  getString _ _ h := by cases h
  getNumber t n h := by
    simp only [Simdjson.literals] at h
    cases hparse : parseNumber (fun _ => none) t.text with
    | error e =>
      rw [hparse] at h
      cases h
    | ok n =>
      rw [hparse] at h
      by_cases htext : IsTokenText t.text
      · exact ((parseNumber_ok_iff _ htext).mp ⟨n, hparse⟩).1
      · simp [Except.bind, htext] at h
  bigInteger t := by
    rw [← parseNumber_bigint_iff fun _ => none]
    simp only [Simdjson.literals]
    cases parseNumber (fun _ => none) t.text with
    | error e => rfl
    | ok n =>
      by_cases htext : IsTokenText t.text <;> simp [Except.bind, htext]
  getBool t b h := by
    simp only [Simdjson.literals] at h
    split at h
    case isTrue htext => exact htext
    case isFalse => cases h

/-- The document `{"a":tru}` is refused. -/
theorem malformed_token_refused_tru :
    RefusedAt (Env.plain .literals) (.member [] (.ok [0x61]) .hole [] none)
      (.ofText [0x74, 0x72, 0x75]) :=
  (malformed_token_refused (Env.plain .literals) Simdjson.literals_validates _
    (.ofText [0x74, 0x72, 0x75]) (by decide)).mpr (.inl (.inr (.inr rfl)))

/-- In `{"a":nope}` and `{"a":xyz}` the malformed token is hashed, like the `null` of
`{"a":null}`.  In `{"a":123456789012345678901x}` it is hashed like a big integer. -/
theorem malformed_tokens_hashed_as_null :
    let env := Env.plain .literals
    let ctx : Context := .member [] (.ok [0x61]) .hole [] none
    let nope : Token := .ofText [0x6e, 0x6f, 0x70, 0x65]
    let xyz : Token := .ofText [0x78, 0x79, 0x7a]
    let null : Token := .ofText nullText
    let big : Token := .ofText [0x31, 0x32, 0x33, 0x34, 0x35, 0x36, 0x37, 0x38, 0x39, 0x30, 0x31,
      0x32, 0x33, 0x34, 0x35, 0x36, 0x37, 0x38, 0x39, 0x30, 0x31, 0x78]
    Validates env.simd ∧ nope.isWellFormed = false ∧ xyz.isWellFormed = false ∧
    big.isWellFormed = false ∧
    ¬ RefusedAt env ctx nope ∧ ¬ RefusedAt env ctx xyz ∧ ¬ RefusedAt env ctx big ∧
    ∃ hash,
      (hashBasicValues env recordPolicy (ctx.plug (.scalar nope)) 0).run [] = .ok () [hash] ∧
      (hashBasicValues env recordPolicy (ctx.plug (.scalar xyz)) 0).run [] = .ok () [hash] ∧
      (hashBasicValues env recordPolicy (ctx.plug (.scalar null)) 0).run [] = .ok () [hash] := by
  intro env ctx nope xyz null big
  have hrun : ∀ {t : Token} {hash : U128},
      (hashBasicValues env recordPolicy (ctx.plug (.scalar t)) 0).run [] = .ok () [hash] →
      ¬ RefusedAt env ctx t := by
    rintro t hash hok ⟨x, herror⟩
    cases hok.symm.trans herror
  have hnope : (hashBasicValues env recordPolicy (ctx.plug (.scalar nope)) 0).run [] = .ok () _ :=
    rfl
  have hxyz : (hashBasicValues env recordPolicy (ctx.plug (.scalar xyz)) 0).run [] = .ok () _ := rfl
  have hbig : (hashBasicValues env recordPolicy (ctx.plug (.scalar big)) 0).run [] = .ok () _ := rfl
  exact ⟨Simdjson.literals_validates, by decide, by decide, by decide, hrun hnope, hrun hxyz,
    hrun hbig, _, hnope, hxyz, rfl⟩

end Dataprint
