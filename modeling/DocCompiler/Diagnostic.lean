import DocCompiler.Json.Number

/-! Diagnostics of a compilation. A finding is the cause; the diagnostic is how it is reported. -/

namespace DocCompiler

inductive Severity where
  | error
  | warning
  deriving DecidableEq

structure Diagnostic where
  code : String
  message : String
  severity : Severity
  details : Option Json

def Diagnostic.isError (d : Diagnostic) : Bool := d.severity = .error

/-- What a compilation can run into without stopping. -/
inductive Finding where
  /-- A reference that does not resolve, with the revision asked for (null when there is none)
  and the snippets being expanded, the outermost first. -/
  | snippetNotFound (reference : String) (revision : Json) (stack : List String)
  /-- A reference to a snippet that is being expanded; it is the last of `stack` once more. -/
  | snippetCycle (snippetId : String) (stack : List String)
  | variableMissing (key : String)
  | formatterNotFound (blockId formatter : String)

namespace Finding

def snippetNotFoundCode : String := "COMPILER_SNIPPET_NOT_FOUND"
def snippetCycleCode : String := "COMPILER_SNIPPET_CYCLE"
def variableMissingCode : String := "COMPILER_VARIABLE_MISSING"
def formatterNotFoundCode : String := "COMPILER_FORMATTER_NOT_FOUND"

def toDiagnostic : Finding → Diagnostic
  | .snippetNotFound reference revision stack =>
    ⟨snippetNotFoundCode, "Snippet not found: " ++ reference, .error, some (.obj [
      ("reference", .str reference), ("revision", revision), ("stack", .strings stack)])⟩
  | .snippetCycle snippetId stack =>
    ⟨snippetCycleCode, "Snippet cycle detected: " ++ " -> ".intercalate stack, .error, some (.obj [
      ("snippetId", .str snippetId), ("stack", .strings stack)])⟩
  | .variableMissing key =>
    ⟨variableMissingCode, "Variable '" ++ key ++ "' has no value", .warning,
      some (.obj [("key", .str key)])⟩
  | .formatterNotFound blockId formatter =>
    ⟨formatterNotFoundCode, "Formatter '" ++ formatter ++ "' is not registered", .warning,
      some (.obj [("blockId", .str blockId), ("formatter", .str formatter)])⟩

end Finding
end DocCompiler
