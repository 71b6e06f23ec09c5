import DocCompiler.Formatting.Whitespace

/-! Filters, which change the text of a whole document. -/

namespace DocCompiler.Formatting

structure Filter where
  id : String
  apply : String → String

namespace Filter

def whitespace : Filter := ⟨"whitespace", tidyWhitespace⟩

def builtin : List Filter := [whitespace]

def applyAll (filters : List Filter) (text : String) : String :=
  filters.foldl (fun t f => f.apply t) text

end Filter
end DocCompiler.Formatting
