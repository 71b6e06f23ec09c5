import DocCompiler.Text.Blank

/-! The key under which a path is found: blanks around it, a leading `./` and leading slashes do
not count; the case of letters does. -/

namespace DocCompiler.Snippet

def dropHere : List Char → List Char
  | '.' :: '/' :: rest => rest
  | cs => cs

def pathKey (path : String) : String :=
  String.ofList ((dropHere (Text.trim path.toList)).dropWhile (· == '/'))

end DocCompiler.Snippet
