import DocCompiler.Document
import DocCompiler.Formatting.Fence
import DocCompiler.Text.Lines

/-! The built-in formatters, which change the text of one block. -/

namespace DocCompiler.Formatting

def quoteLine (line : List Char) : List Char :=
  if line.isEmpty then ['>'] else '>' :: ' ' :: line

def quoteLines (text : String) : String :=
  String.ofList (Text.unlines ((Text.lines text.toList).map quoteLine))

/-- The letters, digits, hyphens and underscores of a text, of ASCII only. -/
def sanitizeTag (raw : String) : String :=
  String.ofList (raw.toList.filter fun c => c.isAlphanum || c == '-' || c == '_')

def nonEmpty? (s : String) : Option String := if s.isEmpty then none else some s

/-- An element around a text, named by the option `tag`. -/
def element (text : String) (m : BlockMetadata) : String :=
  let tag := ((m.option? "tag").bind (nonEmpty? <| sanitizeTag ·)).getD "content"
  "<" ++ tag ++ ">\n" ++ text ++ "\n</" ++ tag ++ ">"

/-- The first line of a callout: its type in capitals, and a title if there is one. -/
def calloutHeader (m : BlockMetadata) : String :=
  let capitals (s : String) := String.ofList (s.toList.map Char.toUpper)
  let kind := ((m.option? "calloutType").bind (nonEmpty? <| capitals <| sanitizeTag ·)).getD "NOTE"
  let head := "> [!" ++ kind ++ "]"
  match (m.option? "title").bind fun t => nonEmpty? (String.ofList (Text.trim t.toList)) with
  | some title => head ++ " " ++ title
  | none => head

def callout (text : String) (m : BlockMetadata) : String :=
  if text.isEmpty then calloutHeader m else calloutHeader m ++ "\n" ++ quoteLines text

inductive Builtin where
  | code
  | xml
  | blockquote
  | callout
  deriving DecidableEq

namespace Builtin

def all : List Builtin := [.code, .xml, .blockquote, .callout]

def id : Builtin → String
  | .code => "code"
  | .xml => "xml"
  | .blockquote => "blockquote"
  | .callout => "callout"

def format (b : Builtin) (text : String) (m : BlockMetadata) : String :=
  match b with
  | .code => fence text (m.language.getD "")
  | .xml => element text m
  | .blockquote => quoteLines text
  | .callout => Formatting.callout text m

def find? (id : String) : Option Builtin := all.find? (·.id == id)

end Builtin
end DocCompiler.Formatting
