import DocCompiler.Time.Calendar
import DocCompiler.Text.Blank

/-! Points in time, read from and written as RFC 3339 text. Reading also takes a blank or a small
letter between date and time, blanks before a number, an offset without a colon and a leap second;
writing is always in UTC. -/

namespace DocCompiler.Time

def nanosPerSecond : Nat := 1000000000

/-- A point in time in UTC: the day since 1 January 1970, the second of the day and its
nanoseconds, of which a leap second has more than those of a second. -/
structure Timestamp where
  day : Int
  second : Nat
  nano : Nat
  inRange : (Date.ofDayNumber day).yearInRange = true
  second_lt : second < 86400
  nano_lt : nano < 2 * nanosPerSecond
  deriving DecidableEq

inductive Fault where
  | tooShort
  | invalid
  | outOfRange
  | trailing
  | impossible
  deriving DecidableEq

def Fault.message : Fault → String
  | .tooShort => "premature end of input"
  | .invalid => "input contains invalid characters"
  | .outOfRange => "input is out of range"
  | .trailing => "trailing input"
  | .impossible => "no possible date and time matching input"

namespace Timestamp

/-- At least one digit and at most `limit` of them. -/
def digits (limit : Nat) (cs : List Char) : Except Fault (Nat × List Char) :=
  match cs with
  | [] => .error .tooShort
  | _ :: _ =>
    let ds := (cs.take limit).takeWhile Char.isDigit
    let n := Nat.ofDigitChars 10 ds 0
    if ds.isEmpty then .error .invalid
    else if UInt64.size / 2 ≤ n then .error .outOfRange
    else .ok (n, cs.drop ds.length)

/-- A number of one or two digits within bounds, after any blanks. -/
def field (low high : Nat) (cs : List Char) : Except Fault (Nat × List Char) := do
  let (n, rest) ← digits 2 (Text.trimStart cs)
  if low ≤ n ∧ n ≤ high then .ok (n, rest) else .error .outOfRange

/-- A year: four digits, or any number of them after a sign. -/
def year (cs : List Char) : Except Fault (Int × List Char) := do
  let (y, rest) ← match Text.trimStart cs with
    | '-' :: rest => (digits rest.length rest).map fun (n, rest) => (-(n : Int), rest)
    | '+' :: rest => (digits rest.length rest).map fun (n, rest) => ((n : Int), rest)
    | cs => (digits 4 cs).map fun (n, rest) => ((n : Int), rest)
  if -2147483648 ≤ y ∧ y ≤ 2147483647 then .ok (y, rest) else .error .outOfRange

def mark (c : Char) (cs : List Char) : Except Fault (List Char) :=
  match Text.trimStart cs with
  | [] => .error .tooShort
  | d :: rest => if d = c then .ok rest else .error .invalid

def separator : List Char → Except Fault (List Char)
  | [] => .error .tooShort
  | c :: rest => if c = 't' ∨ c = 'T' ∨ c = ' ' then .ok rest else .error .invalid

/-- Nanoseconds from a fraction, of which the digits after the ninth are left out. -/
def fraction : List Char → Except Fault (Fin nanosPerSecond × List Char)
  | '.' :: cs => do
    let (n, rest) ← digits 9 cs
    let zeros := List.replicate (9 - (cs.length - rest.length)) '0'
    -- nine digits are less than a second, so the remainder is the number itself
    let nano := Nat.ofDigitChars 10 zeros n % nanosPerSecond
    .ok (⟨nano, Nat.mod_lt _ (by decide)⟩, rest.dropWhile Char.isDigit)
  | cs => .ok (⟨0, by decide⟩, cs)

/-- The length of a text in UTF-8 is at least two bytes. -/
def twoBytes : List Char → Bool
  | [] => false
  | [c] => 2 ≤ c.utf8Size
  | _ => true

def twoDigits (high : Char) (cs : List Char) : Except Fault (Nat × List Char) :=
  match cs with
  | a :: b :: rest =>
    if a.isDigit && b.isDigit then
      if a ≤ high then .ok ((a.toNat - '0'.toNat) * 10 + (b.toNat - '0'.toNat), rest)
      else .error .outOfRange
    else .error .invalid
  | _ => .error (if twoBytes cs then .invalid else .tooShort)

/-- Seconds east of UTC: `Z`, or a sign, hours and minutes. -/
def offset (cs : List Char) : Except Fault (Int × List Char) :=
  let signed (sign : Int) (cs : List Char) : Except Fault (Int × List Char) := do
    let (hours, rest) ← twoDigits '9' cs
    let (minutes, rest) ← twoDigits '5' (rest.dropWhile fun c => c == ':' || Text.isBlank c)
    .ok (sign * (hours * 3600 + minutes * 60), rest)
  match cs with
  | 'Z' :: rest | 'z' :: rest => .ok (0, rest)
  | '+' :: rest => signed 1 rest
  | '-' :: rest | '\u2212' :: rest => signed (-1) rest
  | _ :: _ => .error .invalid
  | [] => .error .tooShort

/-- An offset, or the letters `UTC` in either case. -/
def zone (cs : List Char) : Except Fault (Int × List Char) :=
  let cs := Text.trimStart cs
  if (cs.take 3).map Char.toUpper = ['U', 'T', 'C'] then .ok (0, cs.drop 3) else offset cs

/-- The point in time at which a clock at the given offset shows this date and time. -/
def ofLocal (date : Date) (second : Nat) (leap : Bool) (nano : Fin nanosPerSecond) (offset : Int) :
    Except Fault Timestamp :=
  if ¬ (date.yearInRange && date.exists) ∨ 86400 ≤ offset.natAbs then .error .outOfRange
  else
    let seconds := date.dayNumber * 86400 + second - offset
    if h : (Date.ofDayNumber (seconds / 86400)).yearInRange then
      .ok ⟨seconds / 86400, (seconds % 86400).toNat, nano + if leap then nanosPerSecond else 0, h,
        by omega, by have := nano.isLt; split <;> omega⟩
    else .error .impossible

def read (text : String) : Except Fault Timestamp := do
  let (y, cs) ← year text.toList
  let (m, cs) ← field 1 12 (← mark '-' cs)
  let (d, cs) ← field 1 31 (← mark '-' cs)
  let (hour, cs) ← field 0 23 (← separator cs)
  let (minute, cs) ← field 0 59 (← mark ':' cs)
  let (second, cs) ← field 0 60 (← mark ':' cs)
  let (nano, cs) ← fraction cs
  let (offset, cs) ← zone cs
  if ¬ (Text.trimStart cs).isEmpty then .error .trailing
  else
    let leap := second == 60
    ofLocal ⟨y, m, d⟩ (hour * 3600 + minute * 60 + if leap then 59 else second) leap nano offset

def padded (width n : Nat) : List Char :=
  let ds := Nat.toDigits 10 n
  List.replicate (width - ds.length) '0' ++ ds

/-- Years outside 0 to 9999 carry a sign. -/
def yearText (y : Int) : List Char :=
  if 0 ≤ y ∧ y ≤ 9999 then padded 4 y.toNat
  else (if y < 0 then '-' else '+') :: padded 4 y.natAbs

/-- No digits for a full second, else three, six or nine. -/
def fractionText (nano : Nat) : List Char :=
  if nano = 0 then []
  else if nano % 1000000 = 0 then '.' :: padded 3 (nano / 1000000)
  else if nano % 1000 = 0 then '.' :: padded 6 (nano / 1000)
  else '.' :: padded 9 nano

def text (t : Timestamp) : String :=
  let date := Date.ofDayNumber t.day
  let leap := nanosPerSecond ≤ t.nano
  String.ofList (yearText date.year ++ '-' :: padded 2 date.month ++ '-' :: padded 2 date.day ++
    'T' :: padded 2 (t.second / 3600) ++ ':' :: padded 2 (t.second / 60 % 60) ++
    ':' :: padded 2 (t.second % 60 + if leap then 1 else 0) ++
    fractionText (if leap then t.nano - nanosPerSecond else t.nano) ++ ['Z'])

end Timestamp
end DocCompiler.Time
