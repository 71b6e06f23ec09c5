import DocCompiler.Document
import DocCompiler.Json.Number
import DocCompiler.Text.Scan

/-! Substitution of variables for placeholders: a key between two pairs of braces, without
blanks. What is put in is not looked at again; a placeholder without a value stays. -/

namespace DocCompiler

def VariableValue.rendered : VariableValue → String
  | .null => ""
  | .bool true => "true"
  | .bool false => "false"
  | .number n => String.ofList n.text
  | .text s => s

namespace Substitution

def isKeyChar (c : Char) : Bool := c.isAlphanum || c == '_' || c == '.' || c == '-'

def recognise : Text.Recogniser String
  | '{' :: '{' :: cs =>
    let key := cs.takeWhile isKeyChar
    match key, cs.drop key.length with
    | _ :: _, '}' :: '}' :: _ => some (String.ofList key, key.length + 4)
    | _, _ => none
  | _ => none

def placeholder (key : String) : String := "\x7b\x7b" ++ key ++ "\x7d\x7d"

def pieces (text : String) : List (Text.Piece String) := Text.scan recognise text.toList

def put (values : Variables) (out : String) : Text.Piece String → String
  | .plain c => out.push c
  | .found key => out ++ ((values.find? key).map (·.rendered)).getD (placeholder key)

def missing? (values : Variables) : Text.Piece String → Option String
  | .plain _ => none
  | .found key => if values.contains key then none else some key

end Substitution

def distinctSorted (l : List String) : List String := (SortedMap.ofList (l.map (·, ()))).keys

/-- A text with values put in, and the keys that have none, in order. -/
structure Substitution where
  result : String
  missing : List String

def substitute (text : String) (values : Variables) : Substitution :=
  let ps := Substitution.pieces text
  ⟨ps.foldl (Substitution.put values) "",
    distinctSorted (ps.filterMap (Substitution.missing? values))⟩

/-- The defaults of a document's variables, overlaid by the supplied values. -/
def Document.effectiveVariables (d : Document) (supplied : Variables) : Variables :=
  let defaults := d.definitions.filterMap fun v => v.defaultValue.map (v.key, ·)
  (SortedMap.ofList defaults).overlay supplied

end DocCompiler
