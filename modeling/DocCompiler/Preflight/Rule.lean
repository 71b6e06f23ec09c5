import DocCompiler.Preflight.BlockGraph
import DocCompiler.Preflight.Dependencies
import DocCompiler.Preflight.Governance

/-! The rules that a request is checked by, in their order. -/

namespace DocCompiler.Preflight

structure Rule where
  name : String
  check : CompileRequest → List Issue

namespace Rule

def ofProblems (name : String) (problems : CompileRequest → List Problem) : Rule :=
  ⟨name, fun r => (problems r).map (·.toIssue)⟩

def builtin : List Rule := [
  .ofProblems "status_gate" checkStatus,
  .ofProblems "required_variables" checkRequired,
  .ofProblems "variable_options" checkOptions,
  .ofProblems "schema_version" checkSchemaVersion,
  .ofProblems "snippet_dependencies" checkDependencies,
  .ofProblems "block_graph" checkBlockGraph]

def find? (name : String) : Option Rule := builtin.find? (·.name == name)

end Rule

def run (further : List Rule) (r : CompileRequest) : Report :=
  .ofIssues ((Rule.builtin ++ further).flatMap (·.check r))

end DocCompiler.Preflight
