import DocCompiler.Json.Number
import DocCompiler.Text.Quoted
import DocCompiler.Time.Timestamp

/-! What is wrong with a JSON value that does not fit the type it is decoded as. -/

namespace DocCompiler.Json

/-- What a message says of a value: scalars with their content, containers by kind alone. -/
inductive Shown where
  | null
  | bool (b : Bool)
  | num (n : Number)
  | str (s : String)
  | sequence
  | map

def shown : Json → Shown
  | .null => .null
  | .bool b => .bool b
  | .num n => .num n
  | .str s => .str s
  | .arr _ => .sequence
  | .obj _ => .map

def Shown.message : Shown → String
  | .null => "null"
  | .bool b => "boolean `" ++ (if b then "true" else "false") ++ "`"
  | .num (.int n) => "integer `" ++ String.ofList (Number.int n).text ++ "`"
  | .num (.float x) => "floating point `" ++ String.ofList x.text ++ "`"
  | .str s => "string " ++ Text.quoted s
  | .sequence => "sequence"
  | .map => "map"

inductive Mismatch where
  /-- A value of another kind than the expected one. -/
  | kind (found : Shown) (expected : String)
  /-- A value of the right kind, but not one of the expected ones. -/
  | value (found : Shown) (expected : String)
  /-- An array with too few or too many items. -/
  | length (found : Nat) (expected : String)
  | missingField (name : String)
  | duplicateField (name : String)
  | unknownVariant (name : String) (variants : List String)
  /-- No form of the type fits. -/
  | noVariant (type : String)
  | timestamp (fault : Time.Fault)

def oneOf : List String → String
  | [] => "there are no variants"
  | [a] => "expected `" ++ a ++ "`"
  | [a, b] => "expected `" ++ a ++ "` or `" ++ b ++ "`"
  | names => "expected one of " ++ ", ".intercalate (names.map fun a => "`" ++ a ++ "`")

def Mismatch.message : Mismatch → String
  | .kind found expected => "invalid type: " ++ found.message ++ ", expected " ++ expected
  | .value found expected => "invalid value: " ++ found.message ++ ", expected " ++ expected
  | .length found expected => "invalid length " ++ toString found ++ ", expected " ++ expected
  | .missingField name => "missing field `" ++ name ++ "`"
  | .duplicateField name => "duplicate field `" ++ name ++ "`"
  | .unknownVariant name variants => "unknown variant `" ++ name ++ "`, " ++ oneOf variants
  | .noVariant type => "data did not match any variant of untagged enum " ++ type
  | .timestamp fault => fault.message

end DocCompiler.Json
