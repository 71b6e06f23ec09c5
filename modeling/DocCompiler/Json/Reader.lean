import DocCompiler.Json.Literal

/-! Reading JSON text. A reader takes a value from the front of a text and leaves the rest;
`parse` reads a whole text. Containers nest at most 127 deep. -/

namespace DocCompiler.Json

/-- Takes something from the front of the remaining text. -/
abbrev Reader (α : Type) := StateT (List Char) (Except Fault) α

/-- Bounds of a reading: how many more rounds a loop may take, which is the length of the whole
text and so never the reason to stop, and how many more containers may be opened, plus one. -/
structure Room where
  rounds : Nat
  depth : Nat

namespace Reader

def isSpace (c : Char) : Bool := c == ' ' || c == '\n' || c == '\t' || c == '\r'

/-- The next character that is no space, which stays. -/
def next? : Reader (Option Char) := fun cs =>
  let cs := cs.dropWhile isSpace
  .ok (cs.head?, cs)

def advance : Reader Unit := modify List.tail

/-- Applies a function on texts that yields a value and the rest. -/
def lift {α : Type} (f : List Char → Except Fault (α × List Char)) : Reader α := f

def word (w : List Char) : Reader Unit := fun cs => (Literal.word w cs).map fun rest => ((), rest)

/-- Whether another item follows in an array; `]` stays. -/
def hasItem (first : Bool) : Reader Bool := do
  match ← next? with
  | none => throw .eofInList
  | some ']' => return false
  | some c =>
    if first then return true
    else if c = ',' then
      advance
      match ← next? with
      | none => throw .eofInValue
      | some ']' => throw .trailingComma
      | some _ => return true
    else throw .expectedItemEnd

/-- Whether another entry follows in an object; `}` stays, and a quote is what follows else. -/
def hasEntry (first : Bool) : Reader Bool := do
  match ← next? with
  | none => throw .eofInObject
  | some '}' => return false
  | some c =>
    if first then
      if c = '"' then return true else throw .keyNotString
    else if c = ',' then
      advance
      match ← next? with
      | none => throw .eofInValue
      | some '"' => return true
      | some '}' => throw .trailingComma
      | some _ => throw .keyNotString
    else throw .expectedEntryEnd

def key : Reader String := do
  advance
  lift Literal.string

def colon : Reader Unit := do
  match ← next? with
  | none => throw .eofInObject
  | some ':' => advance
  | some _ => throw .expectedColon

def endArray : Reader Unit := do
  match ← next? with
  | none => throw .eofInList
  | some ']' => advance
  | some ',' =>
    advance
    match ← next? with
    | some ']' => throw .trailingComma
    | _ => throw .trailingCharacters
  | some _ => throw .trailingCharacters

def items {α : Type} (item : Reader α) : Nat → Bool → List α → Reader (List α)
  | 0, _, _ => throw .eofInList
  | rounds + 1, first, done => do
    if ← hasItem first then
      let v ← item
      items item rounds false (v :: done)
    else
      advance
      return done.reverse

/-- The entries of an object after its brace, up to the closing brace. `entry` reads the value
for a key from the colon on and changes what has been gathered so far. -/
def entries {σ : Type} (entry : String → σ → Reader σ) : Nat → Bool → σ → Reader σ
  | 0, _, _ => throw .eofInObject
  | rounds + 1, first, gathered => do
    if ← hasEntry first then
      let k ← key
      let gathered ← entry k gathered
      entries entry rounds false gathered
    else
      advance
      return gathered

def inside {α : Type} (room : Room) (body : Room → Reader α) : Reader α := do
  if room.depth ≤ 1 then throw .tooDeep
  else
    advance
    body { room with depth := room.depth - 1 }

def scalar (c : Char) : Reader Json := do
  if c = 'n' then
    word ['n', 'u', 'l', 'l']
    return .null
  else if c = 't' then
    word ['t', 'r', 'u', 'e']
    return .bool true
  else if c = 'f' then
    word ['f', 'a', 'l', 's', 'e']
    return .bool false
  else if c = '-' then
    advance
    return .num (← lift (Literal.number true))
  else if c.isDigit then
    return .num (← lift (Literal.number false))
  else if c = '"' then
    advance
    return .str (← lift Literal.string)
  else throw .expectedValue

/-- Any value. The entries of its objects stand as they are written when `raw`; else they are
in key order, the last one for a key counting. -/
def value (raw : Bool) (rounds : Nat) : Nat → Reader Json
  | 0 => throw .tooDeep
  | depth + 1 => do
    match ← next? with
    | none => throw .eofInValue
    | some '[' =>
      inside ⟨rounds, depth + 1⟩ fun _ => do
        return .arr (← items (value raw rounds depth) rounds true [])
    | some '{' =>
      inside ⟨rounds, depth + 1⟩ fun _ => do
        let entry (k : String) (done : List (String × Json)) : Reader (List (String × Json)) := do
          colon
          return (k, ← value raw rounds depth) :: done
        let es := (← entries entry rounds true []).reverse
        return if raw then .obj es else .ofEntries es
    | some c => scalar c

inductive Enclosing where
  | list
  | object
  deriving DecidableEq

/-- Passes the commas and closing brackets behind a value, or behind an opening bracket when no
comma is `allowed` yet. What remains are the containers in which the next value stands. -/
def closers : Nat → Bool → List Enclosing → Reader (List Enclosing)
  | 0, _, _ | _ + 1, _, [] => return []
  | rounds + 1, allowed, e :: outer => do
    match ← next?, e with
    | none, .list => throw .eofInList
    | none, .object => throw .eofInObject
    | some ']', .list | some '}', .object =>
      advance
      closers rounds true outer
    | some c, _ =>
      if ¬ allowed then return e :: outer
      else if c = ',' then
        advance
        return e :: outer
      else throw (if e = .list then .expectedItemEnd else .expectedEntryEnd)

def skipKey : Reader Unit := do
  match ← next? with
  | none => throw .eofInObject
  | some '"' =>
    advance
    set (← (Literal.skipStringLoop 0 (← get) : Except Fault (List Char)))
    colon
  | some _ => throw .keyNotString

/-- Passes one value whose content is not wanted. Numbers of any size, lone surrogates and any
depth are allowed in it; `around` are the containers opened inside it. -/
def skip : Nat → List Enclosing → Reader Unit
  | 0, _ => throw .eofInValue
  | rounds + 1, around => do
    let passed (f : List Char → Except Fault (List Char)) : Reader Unit := do
      set (← (f (← get) : Except Fault (List Char)))
    let (allowed, around) ← match ← next? with
      | none => throw .eofInValue
      | some '[' => do advance; pure (false, .list :: around)
      | some '{' => do advance; pure (false, .object :: around)
      | some '"' => do advance; passed (Literal.skipStringLoop 0); pure (true, around)
      | some '-' => do advance; passed Literal.skipNumber; pure (true, around)
      | some c => do
        if c.isDigit then passed Literal.skipNumber
        else if c = 'n' ∨ c = 't' ∨ c = 'f' then discard (scalar c)
        else throw .expectedValue
        pure (true, around)
    match ← closers (rounds + 1) allowed around with
    | [] => return ()
    | .list :: outer => skip rounds (.list :: outer)
    | .object :: outer => do
      skipKey
      skip rounds (.object :: outer)

def run {α : Type} (reader : Room → Reader α) (text : String) : Except Fault α := do
  let cs := text.toList
  let (v, rest) ← reader ⟨cs.length + 1, 128⟩ cs
  if (rest.dropWhile isSpace).isEmpty then .ok v else .error .trailingCharacters

end Reader

def parse (text : String) : Except Fault Json :=
  Reader.run (fun room => Reader.value false room.rounds room.depth) text

end DocCompiler.Json
