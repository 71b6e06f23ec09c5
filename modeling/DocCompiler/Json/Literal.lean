import DocCompiler.Json.Fault

/-! Reading of JSON numbers and strings from the front of a text. -/

namespace DocCompiler.Json.Literal

def digitValue (c : Char) : Nat := c.toNat - '0'.toNat

def significandLimit : Nat := UInt64.size

/-- Appends digits to a significand as long as it stays in its bounds; also tells how many
digits were taken. -/
def takeDigits (significand : Nat) : List Char → Nat × Nat
  | [] => (significand, 0)
  | d :: ds =>
    let longer := significand * 10 + digitValue d
    if longer < significandLimit then
      let (result, taken) := takeDigits longer ds
      (result, taken + 1)
    else (significand, 0)

def ofDecimal (negative : Bool) (d : Decimal) : Except Fault Number :=
  match d.magnitude?.bind (Binary64.ofMagnitude? negative) with
  | some x => .ok (.float x)
  | none => .error .numberOutOfRange

def exponent (cs : List Char) : Except Fault (Int × List Char) :=
  let (negative, cs) := match cs with
    | '+' :: rest => (false, rest)
    | '-' :: rest => (true, rest)
    | cs => (false, cs)
  match cs with
  | [] => .error .eofInValue
  | c :: _ =>
    if c.isDigit then
      let n := Nat.ofDigitChars 10 (cs.takeWhile Char.isDigit) 0
      .ok (if negative then -(n : Int) else n, cs.dropWhile Char.isDigit)
    else .error .invalidNumber

def afterDigits (negative : Bool) (d : Decimal) (cs : List Char) : Except Fault (Number × List Char) :=
  match cs with
  | 'e' :: rest | 'E' :: rest => do
    let (e, rest) ← exponent rest
    .ok (← ofDecimal negative ⟨d.digits, d.exponent + e⟩, rest)
  | _ => do .ok (← ofDecimal negative d, cs)

def fraction (negative : Bool) (d : Decimal) (cs : List Char) : Except Fault (Number × List Char) :=
  let ds := cs.takeWhile Char.isDigit
  let rest := cs.dropWhile Char.isDigit
  match ds, rest with
  | [], [] => .error .eofInValue
  | [], _ :: _ => .error .invalidNumber
  | _ :: _, _ =>
    let (significand, taken) := takeDigits d.digits ds
    afterDigits negative ⟨significand, d.exponent - taken⟩ rest

/-- The integer that plain digits name; a float for minus zero and below `-2 ^ 63`. -/
def ofInteger (negative : Bool) (significand : Nat) : Except Fault Number :=
  if negative then
    if 0 < significand ∧ significand ≤ UInt64.size / 2 then .ok (.int (-(significand : Int)))
    else ofDecimal true ⟨significand, 0⟩
  else .ok (.int significand)

/-- A number after its sign. Digits of the whole part that do not fit the significand only
raise the exponent. -/
def number (negative : Bool) (cs : List Char) : Except Fault (Number × List Char) :=
  let ds := cs.takeWhile Char.isDigit
  let rest := cs.dropWhile Char.isDigit
  match ds with
  | [] => .error (if rest.isEmpty then .eofInValue else .invalidNumber)
  | '0' :: _ :: _ => .error .invalidNumber
  | _ =>
    let (significand, taken) := takeDigits 0 ds
    let dropped := ds.length - taken
    match rest with
    | '.' :: rest => fraction negative ⟨significand, dropped⟩ rest
    | 'e' :: _ | 'E' :: _ => afterDigits negative ⟨significand, dropped⟩ rest
    | _ => do
      .ok (← if dropped = 0 then ofInteger negative significand
        else ofDecimal negative ⟨significand, dropped⟩, rest)

def hexValue? (c : Char) : Option Nat :=
  if c.isDigit then some (c.toNat - '0'.toNat)
  else if 'a' ≤ c ∧ c ≤ 'f' then some (c.toNat - 'a'.toNat + 10)
  else if 'A' ≤ c ∧ c ≤ 'F' then some (c.toNat - 'A'.toNat + 10)
  else none

def hasBytes : Nat → List Char → Bool
  | 0, _ => true
  | _ + 1, [] => false
  | n + 1, c :: cs => hasBytes (n + 1 - c.utf8Size) cs

def hexUnit (cs : List Char) : Except Fault Nat :=
  match (cs.take 4).mapM hexValue? with
  | some [a, b, c, d] => .ok (((a * 16 + b) * 16 + c) * 16 + d)
  | _ => .error (if hasBytes 4 cs then .invalidEscape else .eofInString)

/-- The character of a `\u` escape and how many characters follow the `u`. Characters above
U+FFFF take two escapes, the halves of a surrogate pair. -/
def unicodeEscape (cs : List Char) : Except Fault (Char × Nat) := do
  let high ← hexUnit cs
  if 0xDC00 ≤ high ∧ high ≤ 0xDFFF then .error .loneSurrogate
  else if high < 0xD800 ∨ 0xDBFF < high then .ok (Char.ofNat high, 4)
  else
    match cs.drop 4 with
    | [] => .error .eofInString
    | '\\' :: [] => .error .eofInString
    | '\\' :: 'u' :: rest =>
      let low ← hexUnit rest
      if 0xDC00 ≤ low ∧ low ≤ 0xDFFF then
        .ok (Char.ofNat (0x10000 + (high - 0xD800) * 0x400 + (low - 0xDC00)), 10)
      else .error .loneSurrogate
    | _ => .error .unpairedSurrogate

/-- The character that stands behind a backslash and how many characters name it. -/
def escape : List Char → Except Fault (Char × Nat)
  | [] => .error .eofInString
  | 'u' :: cs => (unicodeEscape cs).map fun (c, size) => (c, size + 1)
  | c :: _ =>
    if c = '"' ∨ c = '\\' ∨ c = '/' then .ok (c, 1)
    else if c = 'b' then .ok ('\x08', 1)
    else if c = 'f' then .ok ('\x0c', 1)
    else if c = 'n' then .ok ('\n', 1)
    else if c = 'r' then .ok ('\r', 1)
    else if c = 't' then .ok ('\t', 1)
    else .error .invalidEscape

/-- A string after its opening quote. The first `skip` characters belong to the escape read
last, and `done` holds the characters so far, the latest first. -/
def stringLoop : Nat → List Char → List Char → Except Fault (String × List Char)
  | _, _, [] => .error .eofInString
  | skip + 1, done, _ :: cs => stringLoop skip done cs
  | 0, done, c :: cs =>
    if c = '"' then .ok (String.ofList done.reverse, cs)
    else if c = '\\' then
      match escape cs with
      | .ok (e, size) => stringLoop size (e :: done) cs
      | .error fault => .error fault
    else if c.toNat < 0x20 then .error .controlCharacter
    else stringLoop 0 (c :: done) cs

def string (cs : List Char) : Except Fault (String × List Char) := stringLoop 0 [] cs

def word : List Char → List Char → Except Fault (List Char)
  | [], cs => .ok cs
  | _ :: _, [] => .error .eofInValue
  | w :: ws, c :: cs => if w = c then word ws cs else .error .expectedWord

def skipNumber (cs : List Char) : Except Fault (List Char) :=
  let ds := cs.takeWhile Char.isDigit
  let rest := cs.dropWhile Char.isDigit
  let skipExponent (cs : List Char) : Except Fault (List Char) :=
    let cs := match cs with
      | '+' :: rest | '-' :: rest => rest
      | cs => cs
    if (cs.takeWhile Char.isDigit).isEmpty then .error .invalidNumber
    else .ok (cs.dropWhile Char.isDigit)
  let skipEnd (cs : List Char) : Except Fault (List Char) :=
    match cs with
    | 'e' :: rest | 'E' :: rest => skipExponent rest
    | cs => .ok cs
  match ds with
  | [] | '0' :: _ :: _ => .error .invalidNumber
  | _ =>
    match rest with
    | '.' :: rest =>
      if (rest.takeWhile Char.isDigit).isEmpty then .error .invalidNumber
      else skipEnd (rest.dropWhile Char.isDigit)
    | rest => skipEnd rest

/-- Passes a string, from behind its opening quote, whose characters are not wanted; its
surrogates need not pair up. -/
def skipStringLoop : Nat → List Char → Except Fault (List Char)
  | _, [] => .error .eofInString
  | skip + 1, _ :: cs => skipStringLoop skip cs
  | 0, c :: cs =>
    if c = '"' then .ok cs
    else if c = '\\' then
      match cs with
      | 'u' :: hex =>
        match hexUnit hex with
        | .ok _ => skipStringLoop 5 cs
        | .error fault => .error fault
      | _ =>
        match escape cs with
        | .ok (_, size) => skipStringLoop size cs
        | .error fault => .error fault
    else if c.toNat < 0x20 then .error .controlCharacter
    else skipStringLoop 0 cs

end DocCompiler.Json.Literal
