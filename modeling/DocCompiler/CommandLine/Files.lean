import DocCompiler.Text.Lines

/-! Files as commands read them: the text that a path names, or why there is none. `Files.within`
are the files of one directory, as paths lead to them from inside it. -/

namespace DocCompiler.CommandLine

inductive ReadFault where
  | notFound
  | notPermitted
  | notDirectory
  | isDirectory
  | nameTooLong
  | notText
  | other (message : String)

def ReadFault.message : ReadFault → String
  | .notFound => "No such file or directory (os error 2)"
  | .notPermitted => "Permission denied (os error 13)"
  | .notDirectory => "Not a directory (os error 20)"
  | .isDirectory => "Is a directory (os error 21)"
  | .nameTooLong => "File name too long (os error 36)"
  | .notText => "stream did not contain valid UTF-8"
  | .other message => message

abbrev Files := String → Except ReadFault String

/-- The greatest length of a path, in bytes. -/
def longestPath : Nat := 4095

/-- The greatest length of a name in a path, in bytes. -/
def longestName : Nat := 255

/-- Where the names of a path have led: into the directory, above it, or to a file in it. -/
inductive Place where
  | inside
  | above
  | file (text : String)

/-- Follows one more name. Nothing leads on from a file, and above the directory no names are
known. -/
def Place.follow (texts : List (String × String)) : Place → String → Except ReadFault Place
  | .file _, _ => .error .notDirectory
  | place, name =>
    if name = "" ∨ name = "." then .ok place
    else if name = ".." then .ok .above
    else if longestName < name.utf8ByteSize then .error .nameTooLong
    else
      match place, texts.lookup name with
      | .inside, some text => .ok (.file text)
      | _, _ => .error .notFound

/-- The files of a directory, by their names. A path that begins with a slash begins above it. -/
def Files.within (texts : List (String × String)) : Files := fun path => do
  let names := (Text.splitBy (· == '/') path.toList).map String.ofList
  let start := if path.startsWith "/" then Place.above else .inside
  if path.isEmpty then throw .notFound
  if longestPath < path.utf8ByteSize then throw .nameTooLong
  match ← names.foldlM (Place.follow texts) start with
  | .file text => .ok text
  | .inside | .above => .error .isDirectory

end DocCompiler.CommandLine
