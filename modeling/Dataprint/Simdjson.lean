import Dataprint.Errors
import Dataprint.Utils
import Dataprint.Foundations.Binary64

/-!
# What Is Used of simdjson

The on-demand parser is outside this development.  What the source sees of it is a
tree of elements whose scalar tokens are validated only when a typed getter is called
on them, and a stream of documents for a buffer.

- `Token.type` classifies a scalar by its first byte only;
- `Element` keeps the errors that iterating an object or array may run into, at the
  place where they surface;
- `Simdjson` lists the functions whose code is not at hand: the typed getters and
  `iterate_many`.  They are parameters of everything that follows.
-/

namespace Dataprint

open Foundations

/-- A byte string. -/
abbrev Bytes := List UInt8

/-- `simdjson::ondemand::json_type`. -/
inductive JsonType where
  | unknown
  | array
  | object
  | number
  | string
  | boolean
  | null
  deriving DecidableEq, Repr

/-- The type of a value by its first byte. -/
def typeOfByte (b : UInt8) : JsonType :=
  if b = 0x7b then .object
  else if b = 0x5b then .array
  else if b = 0x22 then .string
  else if b = 0x6e then .null
  else if b = 0x74 ∨ b = 0x66 then .boolean
  else if b = 0x2d ∨ 0x30 ≤ b ∧ b ≤ 0x39 then .number
  else .unknown

def typeOfText (text : Bytes) : JsonType :=
  match text with
  | [] => .unknown
  | b :: _ => typeOfByte b

/-- The text of a scalar token: any bytes that do not open an object or an array. -/
structure Token where
  text : Bytes
  notContainer : typeOfText text ≠ .object ∧ typeOfText text ≠ .array

/-- `value.type()` of a scalar. -/
def Token.type (t : Token) : JsonType := typeOfText t.text

/-- The texts `null`, `true` and `false`. -/
def nullText : Bytes := [0x6e, 0x75, 0x6c, 0x6c]

def trueText : Bytes := [0x74, 0x72, 0x75, 0x65]

def falseText : Bytes := [0x66, 0x61, 0x6c, 0x73, 0x65]

/-- A value of a document.  An object lists its fields, each with the result of unescaping its
key; iterating past the last field or child either ends or fails with `err`. -/
inductive Element where
  | object (fields : List (Except ErrorCode Bytes × Element)) (err : Option ErrorCode)
  | array (children : List Element) (err : Option ErrorCode)
  | scalar (token : Token)

/-- `element.type()`. -/
def Element.type : Element → JsonType
  | .object _ _ => .object
  | .array _ _ => .array
  | .scalar t => t.type

/-- `is_empty()`: the closing bracket follows at once. -/
def isEmptyContainer {α : Type} (items : List α) (err : Option ErrorCode) : Bool :=
  items.isEmpty && err.isNone

/-- `simdjson::ondemand::number_type`. -/
inductive NumberType where
  | floatingPointNumber
  | signedInteger
  | unsignedInteger
  | bigInteger
  deriving DecidableEq, Repr

/-- `simdjson::ondemand::number`: a 64-bit payload and how to read it. -/
structure Number where
  payload : U64
  type : NumberType
  deriving DecidableEq, Repr

/-- A default-constructed number. -/
def Number.default : Number := ⟨0, .signedInteger⟩

/-- `get_double()`: the payload read as a double, whatever its type. -/
def Number.getDouble (n : Number) : Binary64 := ⟨n.payload⟩

/-- A document of a stream, or the error that taking it as a value reports. -/
abbrev Document := Except ErrorCode Element

/-- The functions of simdjson whose code is not part of the repository. -/
structure Simdjson where
  getString : Token → Except ErrorCode Bytes
  getNumber : Token → Except ErrorCode Number
  getBool : Token → Except ErrorCode Bool
  /-- the documents of a buffer, in order -/
  iterateMany : Bytes → Except ErrorCode (List Document)
  /-- what iterating a stream yields that a failed `iterate_many` left unset -/
  unsetStream : Bytes → List Document

/-- Using a result as a value throws when it is an error. -/
def valueOrThrow {α : Type} (r : Except ErrorCode α) : Except Exn α :=
  r.mapError .simdjsonError

/-- `result.get(out)`: the error code, and `out` overwritten on success only. -/
def getInto {α : Type} (r : Except ErrorCode α) (out : α) : Option ErrorCode × α :=
  match r with
  | .ok a => (none, a)
  | .error e => (some e, out)

/-! ## For examples -/

/-- The token of a given text. -/
def Token.ofText (text : Bytes)
    (h : typeOfText text ≠ .object ∧ typeOfText text ≠ .array := by decide) : Token :=
  ⟨text, h⟩

/-- A parser that refuses every token and finds no documents, for examples. -/
def Simdjson.refusing : Simdjson where
  getString _ := .error .incorrectType
  getNumber _ := .error .incorrectType
  getBool _ := .error .incorrectType
  iterateMany _ := .ok []
  unsetStream _ := []

end Dataprint
