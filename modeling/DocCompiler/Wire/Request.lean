import DocCompiler.Request
import DocCompiler.Wire.Document

/-! Codecs of snippet libraries and of the requests that draw on them. -/

namespace DocCompiler.Wire

def snippet : Codec Snippet :=
  .struct "Snippet" (Snippet.mk
    <$> .required "id" .string (·.id)
    <*> .required "path" .string (·.path)
    <*> .optional "title" .string (·.title)
    <*> .required "headRev" .uint32 (·.headRev)
    <*> .defaulted "body" .string "" (·.body)
    <*> .defaulted "frontmatter" (.map .any) ∅ (·.frontmatter)
    <*> .optional "updatedAt" .timestamp (·.updatedAt))

def snippetVersion : Codec Snippet.Version :=
  .struct "SnippetVersion" (Snippet.Version.mk
    <$> .required "rev" .uint32 (·.rev)
    <*> .optional "parentRev" .uint32 (·.parentRev)
    <*> .required "body" .string (·.body)
    <*> .defaulted "frontmatter" (.map .any) ∅ (·.frontmatter)
    <*> .required "hash" .string (·.hash)
    <*> .optional "timestamp" .timestamp (·.timestamp))

def snippetBundle : Codec Snippet.Bundle :=
  .struct "SnippetBundle" (Snippet.Bundle.mk
    <$> .required "snippet" snippet (·.snippet)
    <*> .defaulted "versions" (.list snippetVersion) [] (·.versions))

def library : Codec (List Snippet.Bundle) := .list snippetBundle

def compileRequest : Codec CompileRequest :=
  .struct "CompileRequest" (CompileRequest.mk
    <$> .required "document" document (·.document)
    <*> .defaulted "snippets" library [] (·.snippets)
    <*> .defaulted "variables" variableValues ∅ (·.values)
    <*> .optional "allowedStatuses" (.list .string) (·.allowedStatuses))

def serializationMessage (f : Json.Fault) : String := "Serialization error: " ++ f.message

end DocCompiler.Wire
