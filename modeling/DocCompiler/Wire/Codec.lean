import DocCompiler.Json.Reader
import DocCompiler.Json.Writer
import DocCompiler.SortedMap

/-! Codecs between types and JSON. A codec writes a value, decodes a JSON value, and reads text,
where faults come in the order of the text. What a text is read into is the JSON value that is
then decoded. -/

namespace DocCompiler.Wire

open Json (Fault Mismatch Reader Room)

/-- Where a JSON value comes from: it stands for itself, or it was set aside until it was known
what to decode it as. Some messages differ. -/
inductive Origin where
  | plain
  | buffered
  deriving DecidableEq

structure Codec (α : Type) where
  encode : α → Json
  decode : Origin → Json → Except Mismatch α
  read : Room → Reader Json

def require {α : Type} (decoded : Except Mismatch α) : Reader Unit :=
  match decoded with
  | .ok _ => pure ()
  | .error m => throw (.mismatch m)

def readScalar (expected : String) : Reader Json := do
  match ← Reader.next? with
  | none => throw .eofInValue
  | some '[' => throw (.mismatch (.kind .sequence expected))
  | some '{' => throw (.mismatch (.kind .map expected))
  | some c => Reader.scalar c

namespace Codec

variable {α : Type}

def ofText (c : Codec α) (text : String) : Except Fault α := do
  let v ← Reader.run c.read text
  (c.decode .plain v).mapError .mismatch

def text (c : Codec α) (a : α) : String := (c.encode a).text

/-- A codec of scalars; `decode` yields nothing for values of another kind. -/
def scalar (expected : String) (encode : α → Json) (decode : Json → Option (Except Mismatch α)) :
    Codec α :=
  let decode := fun v => (decode v).getD (.error (.kind v.shown expected))
  { encode := encode
    decode := fun _ => decode
    read := fun _ => do
      let v ← readScalar expected
      require (decode v)
      return v }

def string : Codec String :=
  .scalar "a string" .str fun
    | .str s => some (.ok s)
    | _ => none

def bool : Codec Bool :=
  .scalar "a boolean" .bool fun
    | .bool b => some (.ok b)
    | _ => none

def integer (expected : String) (low high : Int) (toInt : α → Int) (ofInt : Int → α) : Codec α :=
  .scalar expected (fun a => .num (.int (toInt a))) fun
    | .num (.int n) =>
      some (if low ≤ n ∧ n ≤ high then .ok (ofInt n)
        else .error (.value (.num (.int n)) expected))
    | _ => none

def uint8 : Codec UInt8 := integer "u8" 0 (UInt8.size - 1 : Nat) (·.toNat) (.ofNat ·.toNat)

def uint32 : Codec UInt32 := integer "u32" 0 (UInt32.size - 1 : Nat) (·.toNat) (.ofNat ·.toNat)

def uint64 : Codec UInt64 := integer "usize" 0 (UInt64.size - 1 : Nat) (·.toNat) (.ofNat ·.toNat)

def int64 : Codec Int64 :=
  integer "i64" Int64.minValue.toInt Int64.maxValue.toInt (·.toInt) .ofInt

def timestamp : Codec Time.Timestamp :=
  .scalar "an RFC 3339 formatted date and time string" (fun t => .str t.text) fun
    | .str s => some ((Time.Timestamp.read s).mapError .timestamp)
    | _ => none

def any : Codec Json where
  encode := id
  decode _ v := .ok v
  read room := Reader.value false room.rounds room.depth

def option (c : Codec α) : Codec (Option α) where
  encode := (·.elim .null c.encode)
  decode origin
    | .null => .ok none
    | v => (c.decode origin v).map some
  read room := do
    match ← Reader.next? with
    | some 'n' => Reader.scalar 'n'
    | _ => c.read room

def list (c : Codec α) : Codec (List α) where
  encode l := .arr (l.map c.encode)
  decode origin
    | .arr items => items.mapM (c.decode origin)
    | v => .error (.kind v.shown "a sequence")
  read room := do
    match ← Reader.next? with
    | some '[' =>
      Reader.inside room fun room => do
        return .arr (← Reader.items (c.read room) room.rounds true [])
    | _ =>
      let v ← readScalar "a sequence"
      throw (.mismatch (.kind v.shown "a sequence"))

def map (c : Codec α) : Codec (SortedMap α) where
  encode m := .object (m.map c.encode)
  decode origin
    | .obj entries => do
      let entries ← entries.mapM fun e => do return (e.1, ← c.decode origin e.2)
      return .ofList entries
    | v => .error (.kind v.shown "a map")
  read room := do
    match ← Reader.next? with
    | some '{' =>
      Reader.inside room fun room => do
        let entry (k : String) (done : List (String × Json)) : Reader (List (String × Json)) := do
          Reader.colon
          return (k, ← c.read room) :: done
        return .ofEntries (← Reader.entries entry room.rounds true []).reverse
    | _ =>
      let v ← readScalar "a map"
      throw (.mismatch (.kind v.shown "a map"))

def pick (all : List α) (name : α → String) (s : String) : Except Mismatch α :=
  match all.find? (name · == s) with
  | some a => .ok a
  | none => .error (.unknownVariant s (all.map name))

def isUnit (origin : Origin) : Json → Bool
  | .null => true
  | .obj [] => origin = .buffered
  | _ => false

/-- A choice between names, each written as a string, or as the only key of a map that binds it
to null. -/
def choice (all : List α) (name : α → String) : Codec α where
  encode a := .str (name a)
  decode origin
    | .str s => pick all name s
    | .obj [(s, v)] => do
      let a ← pick all name s
      if isUnit origin v then .ok a else .error (.kind v.shown "unit")
    | .obj _ => .error (.value .map "map with a single key")
    | v => .error (.kind v.shown "string or map")
  read room := do
    match ← Reader.next? with
    | none => throw .eofInValue
    | some '"' =>
      Reader.advance
      let s ← Reader.lift Json.Literal.string
      require (pick all name s)
      return .str s
    | some '{' =>
      Reader.inside room fun _ => do
        if ← Reader.hasEntry true then
          let s ← Reader.key
          require (pick all name s)
          Reader.colon
          let v ← readScalar "unit"
          if ¬ isUnit .plain v then throw (.mismatch (.kind v.shown "unit"))
          match ← Reader.next? with
          | none => throw .eofInObject
          | some '}' =>
            Reader.advance
            return .str s
          | some _ => throw .expectedValue
        else throw .expectedValue
    | some _ => throw .expectedValue

end Codec
end DocCompiler.Wire
