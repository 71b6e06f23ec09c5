/-! The switches of the command line, and the commands that take them. -/

namespace DocCompiler.CommandLine

inductive Switch where
  | document
  | snippets
  | values
  | allowedStatus
  | worker
  | timeoutMs
  | verify
  | help
  deriving DecidableEq

namespace Switch

def long : Switch → String
  | .document => "document"
  | .snippets => "snippets"
  | .values => "variables"
  | .allowedStatus => "allowed-status"
  | .worker => "worker"
  | .timeoutMs => "timeout-ms"
  | .verify => "verify"
  | .help => "help"

def letter? : Switch → Option Char
  | .document => some 'd'
  | .snippets => some 's'
  | .values => some 'v'
  | .help => some 'h'
  | .allowedStatus | .worker | .timeoutMs | .verify => none

/-- What the value of a switch is called, if it takes one. -/
def value? : Switch → Option String
  | .document => some "DOCUMENT"
  | .snippets => some "SNIPPETS"
  | .values => some "VARIABLES"
  | .allowedStatus => some "ALLOWED_STATUSES"
  | .timeoutMs => some "TIMEOUT_MS"
  | .worker | .verify | .help => none

def description : Switch → String
  | .document => "JSON file with the document"
  | .snippets => "JSON file with an array of snippet bundles"
  | .values => "JSON file with a key/value variables object"
  | .allowedStatus => "Status keys allowed for export (repeatable)"
  | .worker => "Compile on a sandboxed worker thread"
  | .timeoutMs => "Worker timeout in milliseconds"
  | .verify => "Verify snippet integrity before compiling"
  | .help => "Print help"

def repeats (s : Switch) : Bool := s = .allowedStatus

/-- The number that a text writes in digits, perhaps after a plus sign, if it has 64 bits. -/
def number? (text : String) : Option Nat :=
  let digits := match text.toList with
    | '+' :: rest => rest
    | cs => cs
  let n := Nat.ofDigitChars 10 digits 0
  if !digits.isEmpty && digits.all Char.isDigit && n < UInt64.size then some n else none

/-- Whether a value may be given to a switch: paths are not empty, and a timeout is a number. -/
def admits (s : Switch) (value : String) : Bool :=
  match s with
  | .document | .snippets | .values => !value.isEmpty
  | .timeoutMs => (number? value).isSome
  | .allowedStatus | .worker | .verify | .help => true

end Switch

inductive Command where
  | compile
  | preflight
  | verify
  deriving DecidableEq

namespace Command

def all : List Command := [.compile, .preflight, .verify]

def name : Command → String
  | .compile => "compile"
  | .preflight => "preflight"
  | .verify => "verify"

def description : Command → String
  | .compile => "Compile a document to markdown"
  | .preflight => "Run preflight checks only"
  | .verify => "Verify snippet bundle integrity"

def switches : Command → List Switch
  | .compile =>
    [.document, .snippets, .values, .allowedStatus, .worker, .timeoutMs, .verify, .help]
  | .preflight => [.document, .snippets, .values, .allowedStatus, .help]
  | .verify => [.snippets, .help]

def required : Command → Switch
  | .compile | .preflight => .document
  | .verify => .snippets

def find? (name : String) : Option Command := all.find? (·.name == name)

end Command
end DocCompiler.CommandLine
