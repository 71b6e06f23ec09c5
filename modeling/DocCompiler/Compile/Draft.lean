import DocCompiler.Request
import DocCompiler.Substitution
import DocCompiler.Transclusion.Expansion

/-! Drafts: what the blocks of a document come to before any formatter has run. Blocks are taken
in sequence order, snippets are expanded and variables put in. -/

namespace DocCompiler.Compile

open Snippet (Index)
open Transclusion (Context ProvenanceLog)

/-- What stands for a snippet block that cannot be resolved. -/
def missingPlaceholder (snippetId : String) : String :=
  "\x7b\x7bmissing:" ++ snippetId ++ "\x7d\x7d"

def renderBlock (index : Index) (b : Block) (ctx : Context) : String × Context :=
  match b.content with
  | .markdown body => Transclusion.expand index body ctx
  | .snippet snippetId revision mode =>
    match index.resolve? snippetId revision with
    | some r => Transclusion.includeSnippet index r mode ctx
    | none =>
      (missingPlaceholder snippetId,
        ctx.notFound snippetId (revision.elim .null (.nat ·.toNat)))
  | .divider style => (style.markdown, ctx)
  | .group .. | .comment .. => ("", ctx)

/-- The text of a block, and the formatter it still has to go through. -/
structure Segment where
  text : String
  formatter : Option (String × BlockMetadata)

def namedFormatter? (b : Block) : Option (String × BlockMetadata) :=
  b.metadata.bind fun m => m.formatter.map (·, m)

/-- The segment of a block, and what there is to find in it. Empty text is not formatted, nor is
text whose formatter is not known. -/
def Segment.of (isKnown : String → Bool) (b : Block) (text : String) : Segment × List Finding :=
  match namedFormatter? b with
  | none => (⟨text, none⟩, [])
  | some (id, m) =>
    if text.isEmpty then (⟨text, none⟩, [])
    else if isKnown id then (⟨text, some (id, m)⟩, [])
    else (⟨text, none⟩, [.formatterNotFound b.id id])

structure Draft where
  segments : Array Segment
  log : ProvenanceLog
  findings : Array Finding
  /-- The keys of placeholders without a value. -/
  missing : List String

namespace Draft

def empty : Draft := ⟨#[], .empty, #[], []⟩

def add (index : Index) (values : Variables) (isKnown : String → Bool) (d : Draft)
    (b : Block) : Draft :=
  let ⟨segments, log, findings, missing⟩ := d
  let (rendered, ctx) := renderBlock index b (.fresh log findings)
  let substituted := substitute rendered values
  let (segment, found) := Segment.of isKnown b substituted.result
  ⟨segments.push segment, ctx.log, ctx.findings ++ found, substituted.missing ++ missing⟩

/-- The draft of a request for a compiler that knows some formatters. -/
def of (isKnown : String → Bool) (r : CompileRequest) : Draft :=
  let index := Index.ofBundles r.snippets
  let values := r.document.effectiveVariables r.values
  r.document.orderedBlocks.foldl (add index values isKnown) empty

/-- All findings, those on missing variables at the end in key order. -/
def allFindings (d : Draft) : List Finding :=
  d.findings.toList ++ (distinctSorted d.missing).map .variableMissing

end Draft
end DocCompiler.Compile
