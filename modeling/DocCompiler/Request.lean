import DocCompiler.Document
import DocCompiler.Snippet

/-! What a compilation is asked for. -/

namespace DocCompiler

/-- A document with the library it draws on, the values of its variables and the statuses that
may be exported; no list, or an empty one, allows them all. -/
structure CompileRequest where
  document : Document
  snippets : List Snippet.Bundle
  values : Variables
  allowedStatuses : Option (List String)

def CompileRequest.ofDocument (document : Document) : CompileRequest := ⟨document, [], ∅, none⟩

end DocCompiler
