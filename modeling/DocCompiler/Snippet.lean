import DocCompiler.Digest.Sha256
import DocCompiler.Json.Writer
import DocCompiler.Time.Timestamp

/-! Snippets: a movable head over revisions that are only ever added. Each revision carries a
hash of its body and its frontmatter. -/

namespace DocCompiler

def frontmatterSeparator : String := "\n---\n"

/-- The text whose hash seals a body with its frontmatter. -/
def sealedText (body : String) (frontmatter : SortedMap Json) : String :=
  body ++ frontmatterSeparator ++ (Json.object frontmatter).canonicalText

def sealHash (body : String) (frontmatter : SortedMap Json) : String :=
  Digest.hashText (sealedText body frontmatter)

/-- The head of a snippet: where it is found, and its current revision. -/
structure Snippet where
  id : String
  path : String
  title : Option String
  headRev : UInt32
  body : String
  frontmatter : SortedMap Json
  updatedAt : Option Time.Timestamp

namespace Snippet

structure Version where
  rev : UInt32
  parentRev : Option UInt32
  body : String
  frontmatter : SortedMap Json
  hash : String
  timestamp : Option Time.Timestamp

def Version.sealed (rev : UInt32) (parentRev : Option UInt32) (body : String)
    (frontmatter : SortedMap Json) : Version :=
  ⟨rev, parentRev, body, frontmatter, sealHash body frontmatter, none⟩

def Version.computedHash (v : Version) : String := sealHash v.body v.frontmatter

structure Bundle where
  snippet : Snippet
  versions : List Version

namespace Bundle

/-- The revision of the greatest number; the last one of several. -/
def latest? (versions : List Version) : Option Version :=
  versions.foldl (fun best v =>
    match best with
    | some b => if b.rev ≤ v.rev then some v else some b
    | none => some v) none

/-- The bundle of these revisions; its path is its id and its head the latest revision. -/
def ofVersions (id : String) (versions : List Version) : Bundle :=
  let head := latest? versions
  ⟨⟨id, id, none, (head.map (·.rev)).getD 0, (head.map (·.body)).getD "",
    (head.map (·.frontmatter)).getD ∅, none⟩, versions⟩

def single (id body : String) : Bundle := ofVersions id [.sealed 1 none body ∅]

def version? (b : Bundle) (rev : UInt32) : Option Version := b.versions.find? (·.rev == rev)

end Bundle

structure Resolved where
  snippet : Snippet
  version : Version

def Resolved.body (r : Resolved) : String := r.version.body

/-- The bundle's snippet at the given revision, or at its head when none is given. -/
def Bundle.pick? (b : Bundle) (revision : Option UInt32) : Option Resolved :=
  (b.version? (revision.getD b.snippet.headRev)).map (⟨b.snippet, ·⟩)

end Snippet
end DocCompiler
