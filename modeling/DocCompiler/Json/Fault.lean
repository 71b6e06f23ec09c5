import DocCompiler.Json.Mismatch

/-! Why a text cannot be read as JSON, or as JSON of an expected type. -/

namespace DocCompiler.Json

/-- Whether the text is wrong, ends too early, or holds a value that does not fit. -/
inductive Category where
  | malformed
  | eof
  | data
  deriving DecidableEq

def Category.name : Category → String
  | .malformed => "syntax"
  | .eof => "eof"
  | .data => "data"

inductive Fault where
  | eofInList
  | eofInObject
  | eofInString
  | eofInValue
  | expectedColon
  | expectedItemEnd
  | expectedEntryEnd
  | expectedWord
  | expectedValue
  | invalidEscape
  | invalidNumber
  | numberOutOfRange
  | controlCharacter
  | keyNotString
  | loneSurrogate
  | trailingComma
  | trailingCharacters
  | unpairedSurrogate
  | tooDeep
  | mismatch (m : Mismatch)

namespace Fault

def category : Fault → Category
  | .eofInList | .eofInObject | .eofInString | .eofInValue => .eof
  | .mismatch _ => .data
  | _ => .malformed

def message : Fault → String
  | .eofInList => "EOF while parsing a list"
  | .eofInObject => "EOF while parsing an object"
  | .eofInString => "EOF while parsing a string"
  | .eofInValue => "EOF while parsing a value"
  | .expectedColon => "expected `:`"
  | .expectedItemEnd => "expected `,` or `]`"
  | .expectedEntryEnd => "expected `,` or `\x7d`"
  | .expectedWord => "expected ident"
  | .expectedValue => "expected value"
  | .invalidEscape => "invalid escape"
  | .invalidNumber => "invalid number"
  | .numberOutOfRange => "number out of range"
  | .controlCharacter => "control character (\\u0000-\\u001F) found while parsing a string"
  | .keyNotString => "key must be a string"
  | .loneSurrogate => "lone leading surrogate in hex escape"
  | .trailingComma => "trailing comma"
  | .trailingCharacters => "trailing characters"
  | .unpairedSurrogate => "unexpected end of hex escape"
  | .tooDeep => "recursion limit exceeded"
  | .mismatch m => m.message

end Fault
end DocCompiler.Json
