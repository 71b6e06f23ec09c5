import DocCompiler.Wire.Codec

/-! Codecs of structures, as sequences of fields. The values of the fields come by name from an
object or by position from an array. Of several faults the one on the least key is reported
first; a field that is missing comes after all faults in present ones. -/

namespace DocCompiler.Wire

open Json (Fault Mismatch Reader Room)

/-- What the values of fields are taken from. -/
inductive Supply where
  | named (entries : List (String × Json))
  | listed (items : List Json)

def Supply.get? (s : Supply) (index : Nat) (name : String) : Option Json :=
  match s with
  | .named entries => (entries.find? (·.1 == name)).map (·.2)
  | .listed items => items[index]?

inductive FieldFault where
  | bad (name : String) (m : Mismatch)
  | absent (index : Nat) (name : String)

namespace FieldFault

/-- Which of two faults is reported, the first of which is on an earlier field. -/
def first (s : Supply) : FieldFault → FieldFault → FieldFault
  | .bad a m, .bad b n =>
    match s with
    | .named _ => if b < a then .bad b n else .bad a m
    | .listed _ => .bad a m
  | .absent .., .bad b n => .bad b n
  | f, _ => f

end FieldFault

def elements (n : Nat) : String := toString n ++ (if n = 1 then " element" else " elements")

/-- A field as readers of text see it. -/
structure Slot where
  name : String
  required : Bool
  check : Origin → Json → Except Mismatch Unit
  read : Room → Reader Json

/-- Fields whose values come from a `σ` and together make up an `α`. -/
structure Fields (σ α : Type) where
  slots : List Slot
  write : σ → List (String × Json)
  decode : Origin → Supply → Nat → Except FieldFault α

namespace Fields

variable {σ α β : Type}

/-- A field with the value it has when it is absent, if it may be. -/
def field (name : String) (c : Codec β) (absent : Option β) (get : σ → β) : Fields σ β where
  slots := [⟨name, absent.isNone, fun origin v => (c.decode origin v).map fun _ => (), c.read⟩]
  write s := [(name, c.encode (get s))]
  decode origin supply index :=
    match supply.get? index name, absent with
    | some v, _ => (c.decode origin v).mapError (.bad name)
    | none, some b => .ok b
    | none, none => .error (.absent index name)

def required (name : String) (c : Codec β) (get : σ → β) : Fields σ β := field name c none get

def defaulted (name : String) (c : Codec β) (default : β) (get : σ → β) : Fields σ β :=
  field name c (some default) get

/-- A field that is left out when there is nothing to write. -/
def optional (name : String) (c : Codec β) (get : σ → Option β) : Fields σ (Option β) :=
  { field name c.option (some none) get with
    write := fun s => ((get s).map fun b => (name, c.encode b)).toList }

def nothing (a : α) : Fields σ α := ⟨[], fun _ => [], fun _ _ _ => .ok a⟩

def followedBy (f : Fields σ (α → β)) (x : Fields σ α) : Fields σ β where
  slots := f.slots ++ x.slots
  write s := f.write s ++ x.write s
  decode origin supply index :=
    match f.decode origin supply index, x.decode origin supply (index + f.slots.length) with
    | .ok g, .ok a => .ok (g a)
    | .error e, .error e' => .error (e.first supply e')
    | .error e, .ok _ => .error e
    | .ok _, .error e => .error e

instance : Applicative (Fields σ) where
  pure := nothing
  seq f x := f.followedBy (x ())

variable (fields : Fields σ α)

def expecting (title : String) : String := title ++ " with " ++ elements fields.slots.length

def run (title : String) (origin : Origin) (supply : Supply) : Except Mismatch α :=
  match fields.decode origin supply 0, supply with
  | .ok a, _ => .ok a
  | .error (.bad _ m), _ => .error m
  | .error (.absent _ name), .named _ => .error (.missingField name)
  | .error (.absent index _), .listed _ => .error (.length index (fields.expecting title))

def tooLong (origin : Origin) (found : Nat) : Mismatch :=
  match origin with
  | .plain => .length found "fewer elements in array"
  | .buffered => .length found (elements fields.slots.length ++ " in sequence")

def runListed (title : String) (origin : Origin) (items : List Json) : Except Mismatch α := do
  let a ← fields.run title origin (.listed items)
  if items.length ≤ fields.slots.length then .ok a
  else .error (fields.tooLong origin items.length)

end Fields

def missing? (slots : List Slot) (entries : List (String × Json)) : Option String :=
  (slots.find? fun slot => slot.required && (entries.all (·.1 != slot.name))).map (·.name)

def readField (room : Room) (slot : Slot) (done : List (String × Json)) :
    Reader (List (String × Json)) := do
  if done.any (·.1 == slot.name) then throw (.mismatch (.duplicateField slot.name))
  Reader.colon
  return (slot.name, ← slot.read room) :: done

/-- Reads the entries of an object into fields and passes all others. -/
def readNamed (slots : List Slot) (room : Room) : Reader Json := do
  let entry (k : String) (done : List (String × Json)) : Reader (List (String × Json)) := do
    match slots.find? (·.name == k) with
    | some slot => readField room slot done
    | none =>
      Reader.colon
      Reader.skip room.rounds []
      return done
  let entries ← Reader.entries entry room.rounds true []
  match missing? slots entries with
  | some name => throw (.mismatch (.missingField name))
  | none => return .ofEntries entries.reverse

/-- Reads the items of an array into fields, of which `index` have been read. -/
def readListed (expecting : String) (room : Room) :
    List Slot → Nat → List Json → Reader Json
  | [], _, done => do
    Reader.endArray
    return .arr done.reverse
  | slot :: rest, index, done => do
    if ← Reader.hasItem (index = 0) then
      let v ← slot.read room
      readListed expecting room rest (index + 1) (v :: done)
    else
      match (slot :: rest).findIdx? (·.required) with
      | some more => throw (.mismatch (.length (index + more) expecting))
      | none =>
        Reader.endArray
        return .arr done.reverse

def Codec.struct {α : Type} (name : String) (fields : Fields α α) : Codec α :=
  let title := "struct " ++ name
  { encode := fun a => .obj (fields.write a)
    decode := fun origin v =>
      match v with
      | .obj entries => fields.run title origin (.named entries)
      | .arr items => fields.runListed title origin items
      | v => .error (.kind v.shown title)
    read := fun room => do
      match ← Reader.next? with
      | some '[' =>
        Reader.inside room fun room => readListed (fields.expecting title) room fields.slots 0 []
      | some '{' => Reader.inside room (readNamed fields.slots)
      | _ =>
        let v ← readScalar title
        throw (.mismatch (.kind v.shown title)) }

end DocCompiler.Wire
