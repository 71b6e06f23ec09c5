import DocCompiler.Compile.Draft
import DocCompiler.Formatting.Filter
import DocCompiler.Preflight.Rule

/-! Results of a compilation: the blocks joined into one markdown text, its projection to one
line, its hash, and the reports. -/

namespace DocCompiler.Compile

def blockSeparator : String := "\n\n"

/-- The text without blanks at its end, closed by a line feed if anything is left. -/
def closeText (text : String) : String :=
  let kept := Text.trimEnd text.toList
  if kept.isEmpty then "" else (String.ofList kept).push '\n'

/-- Every line feed of a text turned into the line ending. -/
def endLines (ending : LineEnding) (text : String) : String :=
  match ending with
  | .lf => text
  | .crlf => String.ofList (text.toList.flatMap fun c => if c = '\n' then ['\r', '\n'] else [c])

def assemble (filters : List Formatting.Filter) (ending : LineEnding) (texts : List String) :
    String :=
  let joined := blockSeparator.intercalate (texts.filter (!·.isEmpty))
  endLines ending (closeText (Formatting.Filter.applyAll filters joined))

structure Result where
  markdown : String
  text : String
  diagnostics : List Diagnostic
  provenance : List Transclusion.ProvenanceEntry
  preflight : Preflight.Report
  hash : String

def Result.of (filters : List Formatting.Filter) (rules : List Preflight.Rule)
    (r : CompileRequest) (d : Draft) (texts : List String) : Result :=
  let markdown := assemble filters r.document.lineEnding texts
  ⟨markdown, Text.flatten markdown, d.allFindings.map (·.toDiagnostic), d.log.entries.toList,
    Preflight.run rules r, Digest.hashText markdown⟩

end DocCompiler.Compile
