import DocCompiler.Compile.Result
import DocCompiler.Formatting.Builtin
import DocCompiler.Sandbox
import DocCompiler.Snippet.Integrity

/-! Compilation. `compileDocument` uses what is built in and is a function of the request alone;
a pipeline may have formatters of its own, which run as scripts in its scope. Preflight is part
of every compilation. -/

namespace DocCompiler.Compile

open Formatting (Builtin Filter)
open Sandbox (Outcome Scope Script)

def engineVersion : String := "1.0.0"

def Segment.formatted (s : Segment) : String :=
  match s.formatter with
  | none => s.text
  | some (id, m) => ((Builtin.find? id).map (·.format s.text m)).getD s.text

/-- Compiles with the built-in formatters, filters and rules. -/
def compileDocument (r : CompileRequest) : Result :=
  let draft := Draft.of (fun id => (Builtin.find? id).isSome) r
  .of Filter.builtin [] r draft (draft.segments.toList.map (·.formatted))

def preflightDocument (r : CompileRequest) : Preflight.Report := Preflight.run [] r

/-- A formatter: the script it runs on a text and the metadata of its block. -/
structure Formatter where
  id : String
  script : String → BlockMetadata → Script

namespace Formatter

def ofFunction (id : String) (f : String → BlockMetadata → String) : Formatter :=
  ⟨id, fun text m => .done (f text m)⟩

def ofBuiltin (b : Builtin) : Formatter := .ofFunction b.id b.format

def builtin : List Formatter := Builtin.all.map ofBuiltin

end Formatter

/-- `rules` are checked after the built-in ones. -/
structure Pipeline where
  formatters : List Formatter
  filters : List Filter
  rules : List Preflight.Rule
  scope : Scope

namespace Pipeline

def default : Pipeline := ⟨Formatter.builtin, Filter.builtin, [], .plain⟩

/-- Adds a formatter in the place of those with the same id. -/
def withFormatter (p : Pipeline) (f : Formatter) : Pipeline :=
  { p with formatters := p.formatters.filter (·.id != f.id) ++ [f] }

def formatter? (p : Pipeline) (id : String) : Option Formatter := p.formatters.find? (·.id == id)

def preflight (p : Pipeline) (r : CompileRequest) : Preflight.Report := Preflight.run p.rules r

def script (p : Pipeline) (s : Segment) : Script :=
  match s.formatter with
  | none => .done s.text
  | some (id, m) => ((p.formatter? id).map (·.script s.text m)).getD (.done s.text)

def compile (p : Pipeline) (r : CompileRequest) : Outcome Result :=
  let draft := Draft.of (fun id => (p.formatter? id).isSome) r
  (Script.runAll p.scope (draft.segments.toList.map p.script)).map
    (Result.of p.filters p.rules r draft)

theorem runAll_done (scope : Scope) (texts : List String) :
    Script.runAll scope (texts.map .done) = ⟨[], .ok texts⟩ := by
  induction texts with
  | nil => rfl
  | cons t rest ih => rw [List.map_cons, Script.runAll, Script.run, ih]; rfl

theorem formatter?_default (id : String) :
    default.formatter? id = (Builtin.find? id).map Formatter.ofBuiltin := by
  show (Builtin.all.map Formatter.ofBuiltin).find? (·.id == id) = _
  rw [List.find?_map]; rfl

theorem script_default (s : Segment) : default.script s = .done s.formatted := by
  obtain ⟨text, formatter⟩ := s
  cases formatter with
  | none => rfl
  | some f =>
    obtain ⟨id, m⟩ := f
    simp only [script, Segment.formatted, formatter?_default]
    cases Builtin.find? id <;> rfl

/-- The default pipeline compiles as `compileDocument` does, and calls nobody. -/
theorem compile_default (r : CompileRequest) :
    default.compile r = ⟨[], .ok (compileDocument r)⟩ := by
  have known : (fun id => (default.formatter? id).isSome) = fun id => (Builtin.find? id).isSome := by
    funext id; rw [formatter?_default, Option.isSome_map]
  have scripts (l : List Segment) : l.map default.script = (l.map (·.formatted)).map .done := by
    rw [List.map_map]; exact List.map_congr_left fun s _ => script_default s
  rw [compile, known, scripts, runAll_done]; rfl

/-- The first fault among the bundles of a request, in their order. -/
def verify (r : CompileRequest) : Except Snippet.IntegrityFault Unit :=
  r.snippets.forM (·.verify)

def compileVerified (p : Pipeline) (r : CompileRequest) :
    Except Snippet.IntegrityFault (Outcome Result) := do
  verify r
  return p.compile r

end Pipeline
end DocCompiler.Compile
