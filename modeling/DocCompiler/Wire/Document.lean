import DocCompiler.Document
import DocCompiler.Wire.Variants

/-! Codecs of documents and what they consist of. -/

namespace DocCompiler

def DividerStyle.name : DividerStyle → String
  | .rule => "rule"
  | .asterisks => "asterisks"
  | .pageBreak => "page-break"

def EdgeKind.name : EdgeKind → String
  | .default => "default"
  | .conditional => "conditional"
  | .error => "error"

def VariableType.name : VariableType → String
  | .text => "text"
  | .number => "number"
  | .boolean => "boolean"
  | .select => "select"
  | .date => "date"

namespace Wire

open Json (Mismatch Reader)

def snippetMode : Codec SnippetMode := .choice [.transclude, .inline] SnippetMode.name

def dividerStyle : Codec DividerStyle := .choice [.rule, .asterisks, .pageBreak] DividerStyle.name

def edgeKind : Codec EdgeKind := .choice [.default, .conditional, .error] EdgeKind.name

def variableType : Codec VariableType :=
  .choice [.text, .number, .boolean, .select, .date] VariableType.name

def encodeValue : VariableValue → Json
  | .null => .null
  | .bool b => .bool b
  | .number n => .num n
  | .text s => .str s

def decodeValue : Json → Except Mismatch VariableValue
  | .null => .ok .null
  | .bool b => .ok (.bool b)
  | .num n => .ok (.number n)
  | .str s => .ok (.text s)
  | .arr _ | .obj _ => .error (.noVariant "VariableValue")

def variableValue : Codec VariableValue where
  encode := encodeValue
  decode _ := decodeValue
  read room := do
    let v ← Reader.value false room.rounds room.depth
    require (decodeValue v)
    return v

def variableValues : Codec Variables := .map variableValue

def blockMetadata : Codec BlockMetadata :=
  .withRest "BlockMetadata"
    (BlockMetadata.mk
      <$> .optional "formatter" .string (·.formatter)
      <*> .optional "language" .string (·.language))
    (·.options)

def blockVariants : List (Variant BlockContent) := [
  .of "BlockContent" "Markdown" "markdown"
    (fun | .markdown body => some body | _ => none)
    (BlockContent.markdown <$> .required "body" .string id),
  .of "BlockContent" "Snippet" "snippet"
    (fun | .snippet id revision mode => some (id, revision, mode) | _ => none)
    (BlockContent.snippet
      <$> .required "snippetId" .string (·.1)
      <*> .optional "revision" .uint32 (·.2.1)
      <*> .defaulted "mode" snippetMode .transclude (·.2.2)),
  .of "BlockContent" "Group" "group"
    (fun | .group children collapsed => some (children, collapsed) | _ => none)
    (BlockContent.group
      <$> .defaulted "children" (.list .string) [] (·.1)
      <*> .optional "collapsed" .bool (·.2)),
  .of "BlockContent" "Comment" "comment"
    (fun | .comment body resolved => some (body, resolved) | _ => none)
    (BlockContent.comment
      <$> .required "body" .string (·.1)
      <*> .optional "resolved" .bool (·.2)),
  .of "BlockContent" "Divider" "divider"
    (fun | .divider style => some style | _ => none)
    (BlockContent.divider <$> .defaulted "style" dividerStyle .rule id)]

def block : Codec Block :=
  .withVariant "Block" "kind"
    (Block.mk
      <$> .required "id" .string (·.id)
      <*> .required "sequence" .int64 (·.sequence)
      <*> .optional "metadata" blockMetadata (·.metadata))
    (·.content) blockVariants

def edge : Codec Edge :=
  .struct "Edge" (Edge.mk
    <$> .required "id" .string (·.id)
    <*> .required "source" .string (·.source)
    <*> .required "target" .string (·.target)
    <*> .defaulted "kind" edgeKind .default (·.kind)
    <*> .optional "condition" .string (·.condition)
    <*> .optional "sourcePort" .string (·.sourcePort)
    <*> .optional "targetPort" .string (·.targetPort))

/-- A definition whose default is null decodes as one without a default. -/
def variableDefinition : Codec VariableDefinition :=
  .struct "VariableDefinition" (VariableDefinition.mk
    <$> .required "id" .string (·.id)
    <*> .required "key" .string (·.key)
    <*> .defaulted "type" variableType .text (·.type)
    <*> .optional "required" .bool (·.required)
    <*> .optional "defaultValue" variableValue (·.defaultValue)
    <*> .optional "options" (.list .string) (·.options))

def document : Codec Document :=
  .struct "Document" (Document.mk
    <$> .required "id" .string (·.id)
    <*> .defaulted "schemaVersion" .uint32 DocCompiler.schemaVersion (·.schemaVersion)
    <*> .required "title" .string (·.title)
    <*> .defaulted "blocks" (.list block) [] (·.blocks)
    <*> .defaulted "edges" (.list edge) [] (·.edges)
    <*> .defaulted "variables" (.list variableDefinition) [] (·.definitions)
    <*> .defaulted "exportRecipes" (.list .any) [] (·.exportRecipes)
    <*> .defaulted "tags" (.list .string) [] (·.tags)
    <*> .required "statusKey" .string (·.statusKey)
    <*> .defaulted "settings" (.map .any) ∅ (·.settings)
    <*> .optional "createdAt" .timestamp (·.createdAt)
    <*> .optional "updatedAt" .timestamp (·.updatedAt))

end Wire
end DocCompiler
