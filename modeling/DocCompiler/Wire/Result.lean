import DocCompiler.Compile.Result
import DocCompiler.Wire.Document

/-! Codecs of results and the reports in them. -/

namespace DocCompiler

def Severity.name : Severity → String
  | .error => "error"
  | .warning => "warning"

namespace Wire

def severity : Codec Severity := .choice [.error, .warning] Severity.name

def diagnostic : Codec Diagnostic :=
  .struct "CompilerDiagnostic" (Diagnostic.mk
    <$> .required "code" .string (·.code)
    <*> .required "message" .string (·.message)
    <*> .required "severity" severity (·.severity)
    <*> .optional "details" .any (·.details))

def issue : Codec Preflight.Issue :=
  .struct "PreflightIssue" (Preflight.Issue.mk
    <$> .required "code" .string (·.code)
    <*> .required "message" .string (·.message)
    <*> .required "severity" severity (·.severity)
    <*> .optional "details" .any (·.details))

def summary : Codec Preflight.Summary :=
  .struct "PreflightSummary" (Preflight.Summary.mk
    <$> .required "errors" .uint64 (·.errors)
    <*> .required "warnings" .uint64 (·.warnings))

def report : Codec Preflight.Report :=
  .struct "PreflightReport" (Preflight.Report.mk
    <$> .required "issues" (.list issue) (·.issues)
    <*> .required "summary" summary (·.summary))

def provenanceEntry : Codec Transclusion.ProvenanceEntry :=
  .struct "ProvenanceEntry" (Transclusion.ProvenanceEntry.mk
    <$> .required "snippetId" .string (·.snippetId)
    <*> .required "revision" .uint32 (·.revision)
    <*> .required "hash" .string (·.hash)
    <*> .required "mode" snippetMode (·.mode)
    <*> .required "path" .string (·.path))

def result : Codec Compile.Result :=
  .struct "CompileResult" (Compile.Result.mk
    <$> .required "markdown" .string (·.markdown)
    <*> .required "text" .string (·.text)
    <*> .required "diagnostics" (.list diagnostic) (·.diagnostics)
    <*> .required "provenance" (.list provenanceEntry) (·.provenance)
    <*> .required "preflight" report (·.preflight)
    <*> .required "hash" .string (·.hash))

end Wire
end DocCompiler
