import DocCompiler.Diagnostic
import DocCompiler.Request

/-! Reports of the checks that a request goes through before an export. A problem is the cause;
an issue is how it is reported. Errors stand in the way of an export, warnings do not. -/

namespace DocCompiler.Preflight

structure Issue where
  code : String
  message : String
  severity : Severity
  details : Option Json

inductive Problem where
  | statusNotAllowed (status : String) (allowed : List String)
  | variableRequired (key variableId : String)
  | variableOption (key value : String) (options : List String)
  | schemaVersion (found : UInt32)
  | dependencyMissing (reference : String) (revision : Option UInt32) (referencedBy : String)
  /-- Snippets that contain each other; the first one stands at the end once more. -/
  | snippetCycle (path : List String)
  | edgeDangling (edge : Edge) (unknown : List String)
  | blockCycle (path : List String)
  | groupChildMissing (groupId childId : String)

namespace Problem

def code : Problem → String
  | .statusNotAllowed .. => "PREFLIGHT_STATUS_GATE"
  | .variableRequired .. => "PREFLIGHT_VARIABLE_REQUIRED"
  | .variableOption .. => "PREFLIGHT_VARIABLE_OPTION"
  | .schemaVersion .. => "PREFLIGHT_SCHEMA_VERSION"
  | .dependencyMissing .. => "PREFLIGHT_SNIPPET_DEPENDENCY_MISSING"
  | .snippetCycle .. => "PREFLIGHT_SNIPPET_CYCLE"
  | .edgeDangling .. => "PREFLIGHT_EDGE_DANGLING"
  | .blockCycle .. => "PREFLIGHT_GRAPH_CYCLE"
  | .groupChildMissing .. => "PREFLIGHT_GROUP_CHILD_MISSING"

def severity : Problem → Severity
  | .statusNotAllowed .. | .variableRequired .. | .dependencyMissing .. | .snippetCycle ..
  | .blockCycle .. => .error
  | .variableOption .. | .schemaVersion .. | .edgeDangling .. | .groupChildMissing .. => .warning

def arrows (path : List String) : String := " -> ".intercalate path

def message : Problem → String
  | .statusNotAllowed status _ => "Document status '" ++ status ++ "' is not allowed for export"
  | .variableRequired key _ => "Required variable '" ++ key ++ "' is missing"
  | .variableOption key value _ =>
    "Variable '" ++ key ++ "' value '" ++ value ++ "' is not one of its options"
  | .schemaVersion found =>
    "Document schema version " ++ toString found.toNat ++ " (expected " ++
      toString DocCompiler.schemaVersion.toNat ++ ")"
  | .dependencyMissing reference _ _ => "Snippet dependency '" ++ reference ++ "' cannot be resolved"
  | .snippetCycle path => "Snippet transclusion cycle: " ++ arrows path
  | .edgeDangling edge unknown =>
    "Edge '" ++ edge.id ++ "' references unknown block(s): " ++ ", ".intercalate unknown
  | .blockCycle path => "Block graph cycle: " ++ arrows path
  | .groupChildMissing groupId childId =>
    "Group '" ++ groupId ++ "' lists unknown child '" ++ childId ++ "'"

def details : Problem → List (String × Json)
  | .statusNotAllowed status allowed =>
    [("allowedStatuses", .strings allowed), ("statusKey", .str status)]
  | .variableRequired key variableId => [("key", .str key), ("variableId", .str variableId)]
  | .variableOption key value options =>
    [("key", .str key), ("options", .strings options), ("value", .str value)]
  | .schemaVersion found =>
    [("expected", .nat DocCompiler.schemaVersion.toNat), ("found", .nat found.toNat)]
  | .dependencyMissing reference revision referencedBy =>
    [("referencedBy", .str referencedBy), ("revision", revision.elim .null (.nat ·.toNat)),
      ("snippetId", .str reference)]
  | .snippetCycle path | .blockCycle path => [("cycle", .strings path)]
  | .edgeDangling edge _ =>
    [("edgeId", .str edge.id), ("source", .str edge.source), ("target", .str edge.target)]
  | .groupChildMissing groupId childId => [("childId", .str childId), ("groupId", .str groupId)]

def toIssue (p : Problem) : Issue := ⟨p.code, p.message, p.severity, some (.obj p.details)⟩

end Problem

structure Summary where
  errors : UInt64
  warnings : UInt64
  deriving DecidableEq

structure Report where
  issues : List Issue
  summary : Summary

namespace Report

/-- A count of 64 bits, which stays at its greatest value. -/
def count (n : Nat) : UInt64 := .ofNat (min n (UInt64.size - 1))

def ofIssues (issues : List Issue) : Report :=
  ⟨issues, count (issues.countP (·.severity = .error)),
    count (issues.countP (·.severity = .warning))⟩

/-- Nothing stands in the way of an export. -/
def isExportable (r : Report) : Bool := r.summary.errors == 0

def hasIssue (r : Report) (code : String) : Bool := r.issues.any (·.code == code)

end Report
end DocCompiler.Preflight
