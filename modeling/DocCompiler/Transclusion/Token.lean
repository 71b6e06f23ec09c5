import DocCompiler.Text.Blank
import DocCompiler.Text.Scan

/-! Transclusion tokens: two opening braces and `>`, a snippet reference, `@` and a revision if
one is pinned, and two closing braces; blanks may stand around the reference. -/

namespace DocCompiler.Transclusion

/-- What a token writes behind its `@`: a revision number, or something else. -/
inductive RevisionSpec where
  | pinned (rev : UInt32)
  | invalid (raw : String)
  deriving DecidableEq

/-- A revision is written as decimal digits below `2 ^ 32`, perhaps after a plus sign. -/
def RevisionSpec.ofChars (cs : List Char) : RevisionSpec :=
  let digits := match cs with
    | '+' :: rest => rest
    | _ => cs
  let n := Nat.ofDigitChars 10 digits 0
  if !digits.isEmpty && digits.all Char.isDigit && n < UInt32.size then .pinned (.ofNat n)
  else .invalid (String.ofList cs)

structure Token where
  source : String
  identifier : String
  revision : Option RevisionSpec
  deriving DecidableEq

namespace Token

/-- The revision a token asks for, if any; nothing when no revision can fit it. -/
def request? (t : Token) : Option (Option UInt32) :=
  match t.revision with
  | none => some none
  | some (.pinned rev) => some (some rev)
  | some (.invalid _) => none

def isIdentifierChar (c : Char) : Bool :=
  !(Text.isBlank c || c == '{' || c == '}' || c == '@')

def isRevisionChar (c : Char) : Bool := !(Text.isBlank c || c == '{' || c == '}')

def revisionPart : List Char → Option (List Char)
  | '@' :: cs => some (cs.takeWhile isRevisionChar)
  | _ => none

/-- The token at the front of a text. No part of it could be read in another way: each run of
characters ends where a character stands that cannot belong to it. -/
def recognise : Text.Recogniser Token
  | '{' :: '{' :: '>' :: cs =>
    let blanks := cs.takeWhile Text.isBlank
    let afterBlanks := cs.drop blanks.length
    let identifier := afterBlanks.takeWhile isIdentifierChar
    let afterIdentifier := afterBlanks.drop identifier.length
    let revision := revisionPart afterIdentifier
    let revisionSize := (revision.map (·.length + 1)).getD 0
    let afterRevision := afterIdentifier.drop revisionSize
    let moreBlanks := afterRevision.takeWhile Text.isBlank
    match identifier, afterRevision.drop moreBlanks.length with
    | _ :: _, '}' :: '}' :: _ =>
      let size := 3 + blanks.length + identifier.length + revisionSize + moreBlanks.length + 2
      some (⟨String.ofList (('{' :: '{' :: '>' :: cs).take size), String.ofList identifier,
        revision.map RevisionSpec.ofChars⟩, size)
    | _, _ => none
  | _ => none

def pieces (text : String) : List (Text.Piece Token) := Text.scan recognise text.toList

def all (text : String) : List Token :=
  (pieces text).filterMap fun
    | .plain _ => none
    | .found t => some t

/-- A token with its place in a text, in bytes of UTF-8. -/
structure Located where
  start : Nat
  stop : Nat
  token : Token

def locateFrom (start : Nat) : List (Text.Piece Token) → List Located
  | [] => []
  | .plain c :: rest => locateFrom (start + c.utf8Size) rest
  | .found t :: rest =>
    let stop := start + t.source.utf8ByteSize
    ⟨start, stop, t⟩ :: locateFrom stop rest

def located (text : String) : List Located := locateFrom 0 (pieces text)

end Token
end DocCompiler.Transclusion
