import DocCompiler.Document
import DocCompiler.Snippet
import Std.Data.HashSet

/-! Which revisions went into a document. Each snippet, revision and mode is logged once, where
it was first used. -/

namespace DocCompiler.Transclusion

structure ProvenanceEntry where
  snippetId : String
  revision : UInt32
  hash : String
  mode : SnippetMode
  path : String
  deriving DecidableEq

def ProvenanceEntry.of (r : Snippet.Resolved) (mode : SnippetMode) : ProvenanceEntry :=
  ⟨r.snippet.id, r.version.rev, r.version.hash, mode, r.snippet.path⟩

/-- What makes two uses the same. -/
def ProvenanceEntry.key (e : ProvenanceEntry) : String × UInt32 × SnippetMode :=
  (e.snippetId, e.revision, e.mode)

def ProvenanceEntry.label (e : ProvenanceEntry) : String :=
  e.snippetId ++ "@" ++ toString e.revision ++ ":" ++ e.mode.name

/-- Entries in the order of their first use, and the labels they have. -/
structure ProvenanceLog where
  entries : Array ProvenanceEntry
  seen : Std.HashSet String

namespace ProvenanceLog

def empty : ProvenanceLog := ⟨#[], ∅⟩

/-- Logs an entry unless one of its label has been logged. -/
def add (log : ProvenanceLog) (e : ProvenanceEntry) : ProvenanceLog :=
  if log.seen.contains e.label then log else ⟨log.entries.push e, log.seen.insert e.label⟩

def record (log : ProvenanceLog) (r : Snippet.Resolved) (mode : SnippetMode) : ProvenanceLog :=
  log.add (.of r mode)

end ProvenanceLog
end DocCompiler.Transclusion
