import DocCompiler.Preflight.Report
import DocCompiler.Substitution

/-! Checks of what a document is allowed and supposed to be: its status, its variables and the
version of its schema. -/

namespace DocCompiler.Preflight

/-- The status is among the allowed ones, if any are listed. -/
def checkStatus (r : CompileRequest) : List Problem :=
  let allowed := r.allowedStatuses.getD []
  let status := r.document.statusKey
  if allowed.isEmpty || allowed.contains status then [] else [.statusNotAllowed status allowed]

/-- Every required variable is supplied; a default does not count. -/
def checkRequired (r : CompileRequest) : List Problem :=
  let missing := r.document.definitions.filter fun d =>
    d.isRequired && !r.values.contains d.key
  missing.map fun d => .variableRequired d.key d.id

/-- The supplied value of a variable with options is one of them, unless it is null. -/
def checkOption (values : Variables) (d : VariableDefinition) : Option Problem :=
  match d.options, values.find? d.key with
  | some (o :: more), some value =>
    match value with
    | .null => none
    | _ =>
      if (o :: more).contains value.rendered then none
      else some (.variableOption d.key value.rendered (o :: more))
  | _, _ => none

def checkOptions (r : CompileRequest) : List Problem :=
  r.document.definitions.filterMap (checkOption r.values)

def checkSchemaVersion (r : CompileRequest) : List Problem :=
  let found := r.document.schemaVersion
  if found = DocCompiler.schemaVersion then [] else [.schemaVersion found]

end DocCompiler.Preflight
