import DocCompiler.Compile.Pipeline
import DocCompiler.Proofs.Preflight.Problems

/-! What a compilation sees of a library: where references lead, and of a version its revision, its
hash, its body, and the id and the path of its snippet. Libraries that are alike in this compile to
the same, whatever else is in them and however they are laid out. -/

namespace DocCompiler

namespace Snippet

/-- Versions that a compilation cannot tell apart. -/
structure Resolved.Alike (r' r : Resolved) : Prop where
  id : r'.snippet.id = r.snippet.id
  path : r'.snippet.path = r.snippet.path
  rev : r'.version.rev = r.version.rev
  hash : r'.version.hash = r.version.hash
  body : r'.body = r.body

theorem Resolved.Alike.refl (r : Resolved) : r.Alike r := ⟨rfl, rfl, rfl, rfl, rfl⟩

/-- References lead to versions that are alike, or lead nowhere in either library. -/
structure Index.Alike (index' index : Index) : Prop where
  resolve? : ∀ reference revision, Option.Rel Resolved.Alike
    (index'.resolve? reference revision) (index.resolve? reference revision)
  resolveById? : ∀ id revision, Option.Rel Resolved.Alike
    (index'.resolveById? id revision) (index.resolveById? id revision)

theorem Index.Alike.of_eq {index' index : Index}
    (h : ∀ reference revision,
      index'.resolve? reference revision = index.resolve? reference revision)
    (hbyId : ∀ id revision, index'.resolveById? id revision = index.resolveById? id revision) :
    index'.Alike index := by
  have hrefl (found : Option Resolved) : Option.Rel Resolved.Alike found found := by
    cases found with
    | none => exact .none
    | some r => exact .some (.refl r)
  refine ⟨fun reference revision => ?_, fun id revision => ?_⟩
  · rw [h]
    exact hrefl _
  · rw [hbyId]
    exact hrefl _

end Snippet

open Snippet (Bundle Index Resolved)

theorem Transclusion.Context.record_alike {r r' : Resolved} (h : r'.Alike r) (mode : SnippetMode)
    (ctx : Context) : ctx.record r' mode = ctx.record r mode := by
  simp only [Context.record, ProvenanceLog.record, ProvenanceEntry.of, h.id, h.path, h.rev, h.hash]

section Index

variable {index index' : Index} (h : index'.Alike index)
include h

namespace Transclusion

theorem target?_alike (t : Token) :
    Option.Rel Resolved.Alike (t.target? index') (t.target? index) := by
  rw [Token.target?, Token.target?]
  cases t.request? with
  | none => exact .none
  | some revision => exact h.resolve? t.identifier revision

theorem onToken_alike (t : Token) (current : Frame) (around : List Frame) (ctx : Context) :
    Machine.onToken index' t current around ctx = Machine.onToken index t current around ctx := by
  have htarget := target?_alike h t
  rw [Machine.onToken, Machine.onToken]
  generalize t.target? index' = target' at htarget
  generalize t.target? index = target at htarget
  cases htarget with
  | none => rfl
  | some hr => simp only [hr.id, hr.body, Context.record_alike hr]

theorem step_alike (m : Machine) : m.step index' = m.step index := by
  obtain ⟨frames, ctx⟩ := m
  match frames with
  | ⟨.plain c :: rest, out⟩ :: around => rfl
  | ⟨.found t :: rest, out⟩ :: around => exact onToken_alike h t _ around ctx
  | ⟨[], done⟩ :: parent :: around => rfl
  | [⟨[], out⟩] => rfl
  | [] => rfl

theorem run_alike (m : Machine) : m.run index' = m.run index := by
  induction m using Machine.run.induct index with
  | case1 m done =>
    rw [Machine.run, dif_pos done]
    rw [Machine.run, dif_pos done]
  | case2 m busy ih =>
    rw [Machine.run, dif_neg busy, step_alike h, ih]
    conv => rhs; rw [Machine.run, dif_neg busy]

theorem expand_alike (text : String) (ctx : Context) :
    expand index' text ctx = expand index text ctx := by
  rw [expand, expand, run_alike h]

theorem includeSnippet_alike {r r' : Resolved} (hr : r'.Alike r) (mode : SnippetMode)
    (ctx : Context) : includeSnippet index' r' mode ctx = includeSnippet index r mode ctx := by
  rw [includeSnippet, includeSnippet, expand_alike h, Context.record_alike hr, hr.id, hr.body]

end Transclusion

namespace Compile

theorem renderBlock_alike (b : Block) (ctx : Transclusion.Context) :
    renderBlock index' b ctx = renderBlock index b ctx := by
  obtain ⟨id, sequence, metadata, content⟩ := b
  cases content with
  | markdown body => exact Transclusion.expand_alike h body ctx
  | snippet snippetId revision mode =>
    have hres := h.resolve? snippetId revision
    simp only [renderBlock]
    generalize index'.resolve? snippetId revision = found' at hres
    generalize index.resolve? snippetId revision = found at hres
    cases hres with
    | none => rfl
    | some hr => exact Transclusion.includeSnippet_alike h hr mode ctx
  | divider | group | comment => rfl

theorem add_alike (values : Variables) (isKnown : String → Bool) :
    Draft.add index' values isKnown = Draft.add index values isKnown := by
  funext d b
  obtain ⟨segments, log, findings, missing⟩ := d
  simp only [Draft.add, renderBlock_alike h]

end Compile

namespace Preflight

theorem target?_alike (m : Mention) :
    Option.Rel Resolved.Alike (m.target? index') (m.target? index) := by
  rw [Mention.target?, Mention.target?]
  cases m.request? with
  | none => exact .none
  | some revision => exact h.resolve? m.reference revision

theorem need?_alike : Mention.need? index' = Mention.need? index := by
  funext m
  have htarget := target?_alike h m
  rw [Mention.need?, Mention.need?]
  generalize m.target? index' = target' at htarget
  generalize m.target? index = target at htarget
  cases htarget with
  | none => rfl
  | some hr => simp only [Option.map_some, hr.id]

theorem isNone_target?_alike (m : Mention) :
    (m.target? index').isNone = (m.target? index).isNone := by
  have htarget := target?_alike h m
  generalize m.target? index' = target' at htarget
  generalize m.target? index = target at htarget
  cases htarget <;> rfl

theorem reportAll_alike (referencedBy : String) (mentions : List Mention) (deps : Dependencies) :
    deps.reportAll index' referencedBy mentions = deps.reportAll index referencedBy mentions := by
  simp only [Dependencies.reportAll, isNone_target?_alike h]

theorem round_alike (w : Worklist) : w.round index' = w.round index := by
  obtain ⟨expanded, needs, deps⟩ := w
  cases needs with
  | nil => rfl
  | cons need rest =>
    have hres := h.resolveById? need.1 need.2
    rw [Worklist.round, Worklist.round]
    generalize index'.resolveById? need.1 need.2 = found' at hres
    generalize index.resolveById? need.1 need.2 = found at hres
    cases hres with
    | none => rfl
    | some halike => simp only [need?_alike h, reportAll_alike h, halike.body]

theorem run_alike (w : Worklist) : w.run index' = w.run index := by
  induction w using Worklist.run.induct index with
  | case1 w done => rw [Worklist.run, dif_pos done, Worklist.run, dif_pos done]
  | case2 w busy ih =>
    rw [Worklist.run, dif_neg busy, round_alike h, ih]
    exact ((Worklist.run.eq_1 index w).trans (dif_neg busy)).symm

end Preflight

end Index

section Requests

variable {r : CompileRequest} {bundles : List Bundle}
  (h : (Index.ofBundles bundles).Alike (Index.ofBundles r.snippets))
include h

theorem Compile.draft_alike (isKnown : String → Bool) :
    Draft.of isKnown { r with snippets := bundles } = Draft.of isKnown r := by
  simp only [Draft.of, add_alike h]

theorem Preflight.problems_alike : problems { r with snippets := bundles } = problems r := by
  have hdependencies : checkDependencies { r with snippets := bundles } = checkDependencies r := by
    have hstart : Worklist.start { r with snippets := bundles } = Worklist.start r := by
      simp only [Worklist.start, need?_alike h, reportAll_alike h]
      rfl
    rw [checkDependencies, checkDependencies, hstart, run_alike h]
  rw [problems, hdependencies]
  rfl

end Requests

end DocCompiler
