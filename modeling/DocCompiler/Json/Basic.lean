import DocCompiler.Json.Decimal
import DocCompiler.SortedMap

/-! JSON values. A number is an integer or a floating-point number, and the two never equal each
other; an object is the list of its entries as they stand. -/

namespace DocCompiler

inductive Json.Number where
  | int (n : Int)
  | float (x : Json.Binary64)
  deriving DecidableEq

inductive Json where
  | null
  | bool (b : Bool)
  | num (n : Json.Number)
  | str (s : String)
  | arr (items : List Json)
  | obj (entries : List (String × Json))
  deriving Inhabited

namespace Json

def object (m : SortedMap Json) : Json := .obj m.entries

/-- The object with these bindings, the last one for a key counting, its keys in order. -/
def ofEntries (entries : List (String × Json)) : Json := object (.ofList entries)

def nat (n : Nat) : Json := .num (.int n)

def strings (l : List String) : Json := .arr (l.map .str)

def field? (key : String) : Json → Option Json
  | .obj entries => (entries.find? (·.1 == key)).map (·.2)
  | _ => none

def str? : Json → Option String
  | .str s => some s
  | _ => none

end Json
end DocCompiler
