import DocCompiler.Wire.Fields

/-! Codecs of objects that are more than their own fields: an object with a tag has the fields of
the variant that its tag names, and an open object keeps its other entries. -/

namespace DocCompiler.Wire

open Json (Fault Mismatch Reader Room)

/-- One form of an `α`. `write?` yields nothing for the other forms. -/
structure Variant (α : Type) where
  name : String
  slots : List Slot
  write? : α → Option (List (String × Json))
  decode : Supply → Except Mismatch α

namespace Variant

variable {α : Type}

/-- The variant of the values that `source?` takes apart; `type` is the type in messages. -/
def of {σ : Type} (type label name : String) (source? : α → Option σ) (fields : Fields σ α) :
    Variant α where
  name := name
  slots := fields.slots
  write? a := (source? a).map fields.write
  decode
    | .listed items =>
      fields.runListed ("struct variant " ++ type ++ "::" ++ label) .buffered items
    | supply => fields.run ("struct variant " ++ type ++ "::" ++ label) .buffered supply

def write (tag : String) (variants : List (Variant α)) (a : α) : List (String × Json) :=
  (variants.findSome? fun v => (v.write? a).map ((tag, .str v.name) :: ·)).getD []

def named (variants : List (Variant α)) (s : String) : Except Mismatch (Variant α) :=
  Codec.pick variants (·.name) s

/-- The variant of a tag, which is a name or the place of a variant in the list. -/
def ofTag (variants : List (Variant α)) : Json → Except Mismatch (Variant α)
  | .str s => named variants s
  | .num (.int n) =>
    if n < 0 then .error (.kind (.num (.int n)) "variant identifier")
    else
      match variants[n.toNat]? with
      | some v => .ok v
      | none =>
        .error (.value (.num (.int n)) ("variant index 0 <= i < " ++ toString variants.length))
  | v => .error (.kind v.shown "variant identifier")

def ofEntries (tag : String) (pick : Json → Except Mismatch (Variant α))
    (entries : List (String × Json)) : Except Mismatch (Variant α) :=
  match (entries.find? (·.1 == tag)).map (·.2) with
  | some t => pick t
  | none => .error (.missingField tag)

/-- Checks entries as they stand in a text: first the tag, which must be there once, then the
fields of its variant. -/
def checkEntries (tag : String) (variants : List (Variant α)) (entries : List (String × Json)) :
    Except Mismatch Unit := do
  let (tags, others) := entries.partition (·.1 == tag)
  let variant ← ofEntries tag (ofTag variants) tags
  if tags.length > 1 then throw (.duplicateField tag)
  let step (seen : List String) (e : String × Json) : Except Mismatch (List String) := do
    match variant.slots.find? (·.name == e.1) with
    | none => return seen
    | some slot =>
      if seen.contains e.1 then throw (.duplicateField e.1)
      slot.check .buffered e.2
      return e.1 :: seen
  let _ ← others.foldlM step []
  match missing? variant.slots others with
  | some name => throw (.missingField name)
  | none => return ()

end Variant

def readOpen (slots : List Slot) (room : Room) :
    Reader (List (String × Json) × List (String × Json)) := do
  let entry (k : String) (done : List (String × Json) × List (String × Json)) :
      Reader (List (String × Json) × List (String × Json)) := do
    match slots.find? (·.name == k) with
    | some slot => return (← readField room slot done.1, done.2)
    | none =>
      Reader.colon
      return (done.1, (k, ← Reader.value true room.rounds room.depth) :: done.2)
  let (own, others) ← Reader.entries entry room.rounds true ([], [])
  match missing? slots own with
  | some name => throw (.mismatch (.missingField name))
  | none => return (own.reverse, others.reverse)

def readObject (title : String) (room : Room) (body : Room → Reader Json) : Reader Json := do
  match ← Reader.next? with
  | some '{' => Reader.inside room body
  | _ =>
    let v ← readScalar title
    throw (.mismatch (.kind v.shown title))

namespace Codec

variable {α β : Type}

/-- A structure with entries of any other keys, which make up a `rest`. -/
def withRest (name : String) (own : Fields α (SortedMap Json → α)) (rest : α → SortedMap Json) :
    Codec α :=
  let title := "struct " ++ name
  { encode := fun a => .obj (own.write a ++ (rest a).entries)
    decode := fun origin v =>
      match v with
      | .obj entries => do
        let make ← own.run title origin (.named entries)
        let others := entries.filter fun e => own.slots.all (·.name != e.1)
        return make (.ofList others)
      | v => .error (.kind v.shown title)
    read := fun room => readObject title room fun room => do
      let (entries, others) ← readOpen own.slots room
      return (Json.obj (entries ++ others)).canonical }

def withVariant (name tag : String) (own : Fields α (β → α)) (part : α → β)
    (variants : List (Variant β)) : Codec α :=
  let title := "struct " ++ name
  { encode := fun a => .obj (own.write a ++ Variant.write tag variants (part a))
    decode := fun origin v =>
      match v with
      | .obj entries => do
        let make ← own.run title origin (.named entries)
        let variant ← Variant.ofEntries tag (Variant.ofTag variants) entries
        return make (← variant.decode (.named entries))
      | v => .error (.kind v.shown title)
    read := fun room => readObject title room fun room => do
      let (entries, others) ← readOpen own.slots room
      require (Variant.checkEntries tag variants others)
      return (Json.obj (entries ++ others)).canonical }

/-- The codec of a type with variants. They are told apart by an entry for the tag, which holds a
name, or by the first item of an array. Only values are decoded, no texts. -/
def decodeTagged (type tag : String) (variants : List (Variant α)) (v : Json) :
    Except Mismatch α :=
  let named : Json → Except Mismatch (Variant α)
    | .str s => Variant.named variants s
    | v => .error (.kind v.shown "variant identifier")
  match v with
  | .obj entries => do
    let variant ← Variant.ofEntries tag named entries
    variant.decode (.named entries)
  | .arr [] => .error (.missingField tag)
  | .arr (t :: items) => do
    let variant ← named t
    variant.decode (.listed items)
  | v => .error (.kind v.shown ("internally tagged enum " ++ type))

end Codec
end DocCompiler.Wire
