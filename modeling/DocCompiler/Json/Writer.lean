import DocCompiler.Json.Number

/-! JSON text: the compact form without blanks, the indented form, and the canonical form, which
is the compact form with the keys of every object in order. -/

namespace DocCompiler.Json

def hexDigit (n : Nat) : Char := Nat.digitChar n

/-- How a character is written between quotes: a quote, a backslash and the control characters
are escaped, all others stand as they are. -/
def escapeChar (c : Char) : List Char :=
  if c = '"' then ['\\', '"']
  else if c = '\\' then ['\\', '\\']
  else if c = '\x08' then ['\\', 'b']
  else if c = '\t' then ['\\', 't']
  else if c = '\n' then ['\\', 'n']
  else if c = '\x0c' then ['\\', 'f']
  else if c = '\r' then ['\\', 'r']
  else if c.toNat < 0x20 then
    ['\\', 'u', '0', '0', hexDigit (c.toNat / 16), hexDigit (c.toNat % 16)]
  else [c]

def quote (s : String) : List Char := '"' :: (s.toList.flatMap escapeChar ++ ['"'])

mutual

def chars : Json → List Char
  | .null => ['n', 'u', 'l', 'l']
  | .bool true => ['t', 'r', 'u', 'e']
  | .bool false => ['f', 'a', 'l', 's', 'e']
  | .num n => n.text
  | .str s => quote s
  | .arr items => '[' :: (itemChars items ++ [']'])
  | .obj entries => '{' :: (entryChars entries ++ ['}'])

def itemChars : List Json → List Char
  | [] => []
  | [v] => v.chars
  | v :: rest => v.chars ++ ',' :: itemChars rest

def entryChars : List (String × Json) → List Char
  | [] => []
  | [(k, v)] => quote k ++ ':' :: v.chars
  | (k, v) :: rest => quote k ++ ':' :: (v.chars ++ ',' :: entryChars rest)

end

def text (v : Json) : String := String.ofList v.chars

mutual

/-- The value with the keys of every object in order, at every depth. -/
def canonical : Json → Json
  | .arr items => .arr (canonicalItems items)
  | .obj entries => .ofEntries (canonicalEntries entries)
  | .null => .null
  | .bool b => .bool b
  | .num n => .num n
  | .str s => .str s

def canonicalItems : List Json → List Json
  | [] => []
  | v :: rest => v.canonical :: canonicalItems rest

def canonicalEntries : List (String × Json) → List (String × Json)
  | [] => []
  | (k, v) :: rest => (k, v.canonical) :: canonicalEntries rest

end

def canonicalText (v : Json) : String := v.canonical.text

def newLine (depth : Nat) : List Char := '\n' :: List.replicate (2 * depth) ' '

mutual

def indentedChars (depth : Nat) : Json → List Char
  | .arr [] => ['[', ']']
  | .obj [] => ['{', '}']
  | .arr (v :: rest) =>
    '[' :: (newLine (depth + 1) ++ indentedChars (depth + 1) v ++ indentedItems (depth + 1) rest ++
      newLine depth ++ [']'])
  | .obj ((k, v) :: rest) =>
    '{' :: (newLine (depth + 1) ++ quote k ++ ':' :: ' ' :: indentedChars (depth + 1) v ++
      indentedEntries (depth + 1) rest ++ newLine depth ++ ['}'])
  | v => v.chars

def indentedItems (depth : Nat) : List Json → List Char
  | [] => []
  | v :: rest => ',' :: (newLine depth ++ indentedChars depth v ++ indentedItems depth rest)

def indentedEntries (depth : Nat) : List (String × Json) → List Char
  | [] => []
  | (k, v) :: rest =>
    ',' :: (newLine depth ++ quote k ++ ':' :: ' ' :: indentedChars depth v ++
      indentedEntries depth rest)

end

def indentedText (v : Json) : String := String.ofList (indentedChars 0 v)

end DocCompiler.Json
