/-!
# Error Codes and Exceptions

The error codes of simdjson with their messages, and the C++ exceptions that the
modelled functions throw.
-/

namespace Dataprint

/-- `simdjson::error_code`, less `SUCCESS`: a result that succeeds is an `Except.ok`. -/
inductive ErrorCode where
  | capacity
  | memalloc
  | tapeError
  | depthError
  | stringError
  | tAtomError
  | fAtomError
  | nAtomError
  | numberError
  | bigintError
  | utf8Error
  | uninitialized
  | empty
  | unescapedChars
  | unclosedString
  | unsupportedArchitecture
  | incorrectType
  | numberOutOfRange
  | indexOutOfBounds
  | noSuchField
  | ioError
  | invalidJsonPointer
  | invalidUriFragment
  | unexpectedError
  | parserInUse
  | outOfOrderIteration
  | insufficientPadding
  | incompleteArrayOrObject
  | scalarDocumentAsValue
  | outOfBounds
  | trailingContent
  | outOfCapacity
  deriving DecidableEq, Repr

/-- `simdjson::error_message`, the table `error_codes`. -/
def errorMessage : ErrorCode → String
  | .capacity => "CAPACITY: This parser can't support a document that big"
  | .memalloc => "MEMALLOC: Error allocating memory, we're most likely out of memory"
  | .tapeError => "TAPE_ERROR: The JSON document has an improper structure: missing or " ++
      "superfluous commas, braces, missing keys, etc.  This is a fatal and unrecoverable error."
  | .depthError => "DEPTH_ERROR: The JSON document was too deep (too many nested objects and " ++
      "arrays)"
  | .stringError => "STRING_ERROR: Problem while parsing a string"
  | .tAtomError => "T_ATOM_ERROR: Problem while parsing an atom starting with the letter 't'"
  | .fAtomError => "F_ATOM_ERROR: Problem while parsing an atom starting with the letter 'f'"
  | .nAtomError => "N_ATOM_ERROR: Problem while parsing an atom starting with the letter 'n'"
  | .numberError => "NUMBER_ERROR: Problem while parsing a number"
  | .bigintError => "BIGINT_ERROR: Big integer value that cannot be represented using 64 bits"
  | .utf8Error => "UTF8_ERROR: The input is not valid UTF-8"
  | .uninitialized => "UNINITIALIZED: Uninitialized"
  | .empty => "EMPTY: no JSON found"
  | .unescapedChars => "UNESCAPED_CHARS: Within strings, some characters must be escaped, we " ++
      "found unescaped characters"
  | .unclosedString => "UNCLOSED_STRING: A string is opened, but never closed."
  | .unsupportedArchitecture => "UNSUPPORTED_ARCHITECTURE: simdjson does not have an " ++
      "implementation supported by this CPU architecture. Please report this error to the core " ++
      "team as it should never happen."
  | .incorrectType => "INCORRECT_TYPE: The JSON element does not have the requested type."
  | .numberOutOfRange => "NUMBER_OUT_OF_RANGE: The JSON number is too large or too small to fit " ++
      "within the requested type."
  | .indexOutOfBounds => "INDEX_OUT_OF_BOUNDS: Attempted to access an element of a JSON array " ++
      "that is beyond its length."
  | .noSuchField => "NO_SUCH_FIELD: The JSON field referenced does not exist in this object."
  | .ioError => "IO_ERROR: Error reading the file."
  | .invalidJsonPointer => "INVALID_JSON_POINTER: Invalid JSON pointer syntax."
  | .invalidUriFragment => "INVALID_URI_FRAGMENT: Invalid URI fragment syntax."
  | .unexpectedError => "UNEXPECTED_ERROR: Unexpected error, consider reporting this problem as " ++
      "you may have found a bug in simdjson"
  | .parserInUse => "PARSER_IN_USE: Cannot parse a new document while a document is still in use."
  | .outOfOrderIteration => "OUT_OF_ORDER_ITERATION: Objects and arrays can only be iterated " ++
      "when they are first encountered."
  | .insufficientPadding => "INSUFFICIENT_PADDING: simdjson requires the input JSON string to " ++
      "have at least SIMDJSON_PADDING extra bytes allocated, beyond the string's length. " ++
      "Consider using the simdjson::padded_string class if needed."
  | .incompleteArrayOrObject => "INCOMPLETE_ARRAY_OR_OBJECT: JSON document ended early in the " ++
      "middle of an object or array. This is a fatal and unrecoverable error."
  | .scalarDocumentAsValue => "SCALAR_DOCUMENT_AS_VALUE: A JSON document made of a scalar " ++
      "(number, Boolean, null or string) is treated as a value. Use get_bool(), get_double(), " ++
      "etc. on the document instead. "
  | .outOfBounds => "OUT_OF_BOUNDS: Attempt to access location outside of document."
  | .trailingContent => "TRAILING_CONTENT: Unexpected trailing content in the JSON input."
  | .outOfCapacity => "OUT_OF_CAPACITY: The capacity was exceeded, we cannot allocate enough " ++
      "memory."

/-- A thrown C++ exception. -/
inductive Exn where
  /-- `std::runtime_error` -/
  | runtimeError (what : String)
  /-- `simdjson::simdjson_error`, thrown when a failed result is used as a value -/
  | simdjsonError (code : ErrorCode)
  /-- `std::out_of_range` -/
  | outOfRange (what : String)
  deriving DecidableEq, Repr

end Dataprint
