import DocCompiler.Snippet

/-! Integrity of a bundle: revisions are distinct, every stored hash is the hash of what it
seals, every parent is an earlier revision of the bundle, and the head is one of its revisions.
`Bundle.verify` reports the first fault in this order of checks. -/

namespace DocCompiler.Snippet

inductive IntegrityFault where
  | hashMismatch (snippetId : String) (rev : UInt32) (stored computed : String)
  | headMissing (snippetId : String) (headRev : UInt32)
  | brokenLineage (snippetId : String) (rev parentRev : UInt32)
  | duplicateRevision (snippetId : String) (rev : UInt32)
  deriving DecidableEq

namespace IntegrityFault

def name : IntegrityFault → String
  | .hashMismatch .. => "HashMismatch"
  | .headMissing .. => "HeadMissing"
  | .brokenLineage .. => "BrokenLineage"
  | .duplicateRevision .. => "DuplicateRevision"

def message : IntegrityFault → String
  | .hashMismatch id rev stored computed =>
    "Snippet " ++ id ++ " rev " ++ toString rev.toNat ++ ": hash mismatch (stored " ++ stored ++
      ", computed " ++ computed ++ ")"
  | .headMissing id headRev =>
    "Snippet " ++ id ++ ": head revision " ++ toString headRev.toNat ++ " has no version"
  | .brokenLineage id rev parentRev =>
    "Snippet " ++ id ++ " rev " ++ toString rev.toNat ++ ": parent revision " ++
      toString parentRev.toNat ++ " is not an earlier version"
  | .duplicateRevision id rev =>
    "Snippet " ++ id ++ ": revision " ++ toString rev.toNat ++ " appears more than once"

def refusal (f : IntegrityFault) : String := "Snippet integrity check failed: " ++ f.message

end IntegrityFault

namespace Bundle

/-- Checks each revision against those before it and against its hash. -/
def checkVersions (id : String) (seen : List UInt32) : List Version → Except IntegrityFault Unit
  | [] => .ok ()
  | v :: rest =>
    if v.rev ∈ seen then .error (.duplicateRevision id v.rev)
    else if v.computedHash ≠ v.hash then .error (.hashMismatch id v.rev v.hash v.computedHash)
    else checkVersions id (v.rev :: seen) rest

/-- Checks that each parent is an earlier one of the given revisions. -/
def checkLineage (id : String) (revs : List UInt32) : List Version → Except IntegrityFault Unit
  | [] => .ok ()
  | v :: rest =>
    match v.parentRev with
    | some parent =>
      if v.rev ≤ parent ∨ parent ∉ revs then .error (.brokenLineage id v.rev parent)
      else checkLineage id revs rest
    | none => checkLineage id revs rest

def verify (b : Bundle) : Except IntegrityFault Unit := do
  let revs := b.versions.map (·.rev)
  checkVersions b.snippet.id [] b.versions
  checkLineage b.snippet.id revs b.versions
  if b.snippet.headRev ∈ revs then .ok ()
  else .error (.headMissing b.snippet.id b.snippet.headRev)

end Bundle
end DocCompiler.Snippet
