import DocCompiler.Json.Basic
import DocCompiler.Time.Timestamp

/-! Documents: blocks in a sequence, edges between them, and definitions of the variables that
their text may name. -/

namespace DocCompiler

def schemaVersion : UInt32 := 2

/-- How a snippet got into a document: through a token in text, or as a block of its own. -/
inductive SnippetMode where
  | transclude
  | inline
  deriving DecidableEq

def SnippetMode.name : SnippetMode → String
  | .transclude => "transclude"
  | .inline => "inline"

inductive DividerStyle where
  | rule
  | asterisks
  | pageBreak
  deriving DecidableEq

def DividerStyle.markdown : DividerStyle → String
  | .rule => "---"
  | .asterisks => "* * *"
  | .pageBreak => "<div class=\"page-break\"></div>"

inductive BlockContent where
  | markdown (body : String)
  | snippet (snippetId : String) (revision : Option UInt32) (mode : SnippetMode)
  | group (children : List String) (collapsed : Option Bool)
  | comment (body : String) (resolved : Option Bool)
  | divider (style : DividerStyle)

def BlockContent.kind : BlockContent → String
  | .markdown .. => "markdown"
  | .snippet .. => "snippet"
  | .group .. => "group"
  | .comment .. => "comment"
  | .divider .. => "divider"

structure BlockMetadata where
  formatter : Option String
  language : Option String
  options : SortedMap Json

namespace BlockMetadata

def ofFormatter (id : String) : BlockMetadata := ⟨some id, none, ∅⟩

def withLanguage (m : BlockMetadata) (language : String) : BlockMetadata :=
  { m with language := some language }

def withOption (m : BlockMetadata) (key : String) (value : Json) : BlockMetadata :=
  { m with options := m.options.insert key value }

/-- The option `key`, if it is a string. -/
def option? (m : BlockMetadata) (key : String) : Option String :=
  (m.options.find? key).bind Json.str?

end BlockMetadata

structure Block where
  id : String
  sequence : Int64
  metadata : Option BlockMetadata
  content : BlockContent

namespace Block

def kind (b : Block) : String := b.content.kind

def markdown (id : String) (sequence : Int64) (body : String) : Block :=
  ⟨id, sequence, none, .markdown body⟩

/-- A block that stands for the head revision of a snippet. -/
def snippet (id : String) (sequence : Int64) (snippetId : String) : Block :=
  ⟨id, sequence, none, .snippet snippetId none .transclude⟩

def withMetadata (b : Block) (m : BlockMetadata) : Block := { b with metadata := some m }

end Block

inductive EdgeKind where
  | default
  | conditional
  | error
  deriving DecidableEq

structure Edge where
  id : String
  source : String
  target : String
  kind : EdgeKind
  condition : Option String
  sourcePort : Option String
  targetPort : Option String

def Edge.between (id source target : String) : Edge :=
  ⟨id, source, target, .default, none, none, none⟩

inductive VariableType where
  | text
  | number
  | boolean
  | select
  | date
  deriving DecidableEq

/-- The value of a variable: a JSON scalar. -/
inductive VariableValue where
  | null
  | bool (b : Bool)
  | number (n : Json.Number)
  | text (s : String)

structure VariableDefinition where
  id : String
  key : String
  type : VariableType
  required : Option Bool
  defaultValue : Option VariableValue
  options : Option (List String)

namespace VariableDefinition

def ofKey (key : String) : VariableDefinition :=
  ⟨"var-" ++ key, key, .text, none, none, none⟩

def isRequired (d : VariableDefinition) : Bool := d.required.getD false

end VariableDefinition

abbrev Variables := SortedMap VariableValue

inductive LineEnding where
  | lf
  | crlf
  deriving DecidableEq

def LineEnding.text : LineEnding → String
  | .lf => "\n"
  | .crlf => "\r\n"

structure Document where
  id : String
  schemaVersion : UInt32
  title : String
  blocks : List Block
  edges : List Edge
  definitions : List VariableDefinition
  exportRecipes : List Json
  tags : List String
  statusKey : String
  settings : SortedMap Json
  createdAt : Option Time.Timestamp
  updatedAt : Option Time.Timestamp

namespace Document

def empty (id title statusKey : String) : Document :=
  ⟨id, DocCompiler.schemaVersion, title, [], [], [], [], [], statusKey, ∅, none, none⟩

/-- The blocks by sequence; blocks of equal sequence keep the order they are written in. -/
def orderedBlocks (d : Document) : List Block :=
  d.blocks.mergeSort fun a b => a.sequence ≤ b.sequence

def block? (d : Document) (id : String) : Option Block := d.blocks.find? (·.id == id)

/-- Lines end as the setting `newline` says, if it is `"\r\n"`; else in a line feed. -/
def lineEnding (d : Document) : LineEnding :=
  match (d.settings.find? "newline").bind Json.str? with
  | some "\r\n" => .crlf
  | _ => .lf

end Document
end DocCompiler
