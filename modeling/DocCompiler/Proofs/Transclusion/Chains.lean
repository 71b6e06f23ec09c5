import DocCompiler.Proofs.Preflight.Resolution
import DocCompiler.Proofs.Transclusion.Tokens
import Mathlib.Data.List.Chain
import Mathlib.Data.List.Nodup

/-! What an expansion leaves of its context. The snippets being expanded are the same as before, in
the chain and in the set. Every finding names the snippets around it: those that were being expanded
before, and then, each mentioned by a body of the one before it, those that have been entered. -/

namespace DocCompiler.Transclusion

open Snippet (Bundle Index Resolved)

def Mentions (index : Index) (text id : String) : Prop :=
  ∃ t ∈ Token.all text, ∃ r, t.target? index = some r ∧ r.snippet.id = id

/-- Some version of the first snippet, in a bundle of the library, mentions the second. -/
def Links (index : Index) (library : List Bundle) (id id' : String) : Prop :=
  ∃ b ∈ library, b.snippet.id = id ∧ ∃ v ∈ b.versions, Mentions index v.body id'

def Within (library : List Bundle) (r : Resolved) : Prop :=
  ∃ b ∈ library, r.snippet = b.snippet ∧ r.version ∈ b.versions

def namedIn : Finding → List String
  | .snippetNotFound _ _ stack | .snippetCycle _ stack => stack
  | .variableMissing _ | .formatterNotFound .. => []

/-- A reference that leads nowhere stands inside snippets that are all distinct. So does a cycle,
and one of them is the snippet that it comes back to, which is named last. -/
def Simple : Finding → Prop
  | .snippetNotFound _ _ stack => stack.Nodup
  | .snippetCycle id stack => ∃ around, stack = around ++ [id] ∧ around.Nodup ∧ around.count id = 1
  | .variableMissing _ | .formatterNotFound .. => False

/-- What a finding says that is made inside the snippets of `stack`: it names them, and behind them
those that have been entered since, each linked to the next. -/
structure Truthful (index : Index) (library : List Bundle) (stack : List String) (f : Finding) :
    Prop where
  simple : Simple f
  linked : ∃ entered, namedIn f = stack ++ entered ∧ entered.IsChain (Links index library)

/-- The second context is left of the first one by an expansion. -/
structure Unwinds (index : Index) (library : List Bundle) (ctx ctx' : Context) : Prop where
  stack : ctx'.stack = ctx.stack
  onStack : ∀ id, ctx'.onStack.contains id = ctx.onStack.contains id
  findings : ∃ added : List Finding, ctx'.findings = ctx.findings ++ added ∧
    ∀ f ∈ added, Truthful index library ctx.stack f

variable {index : Index} {library : List Bundle} {stack : List String} {text : String} {t : Token}
  {f : Finding} {r : Resolved}

theorem mentions_of_target? (ht : .found t ∈ Token.pieces text) (hr : t.target? index = some r) :
    Mentions index text r.snippet.id :=
  ⟨t, Token.mem_all.2 ht, r, hr, rfl⟩

theorem within_of_target? (hlibrary : index.bundles ⊆ library) (hr : t.target? index = some r) :
    Within library r := by
  obtain ⟨b, hb, h⟩ := bundle_of_target? hr
  exact ⟨b, hlibrary hb, h⟩

theorem Within.links (h : Within library r) {id : String} (hid : Mentions index r.body id) :
    Links index library r.snippet.id id := by
  obtain ⟨b, hb, hsnippet, hversion⟩ := h
  exact ⟨b, hb, by rw [hsnippet], r.version, hversion, hid⟩

/-- Snippets that are entered one after the other, beginning in a text. -/
structure Trail (index : Index) (library : List Bundle) (text : String) (ids : List String) :
    Prop where
  first : ∀ id ∈ ids.head?, Mentions index text id
  chain : ids.IsChain (Links index library)

theorem Trail.nil : Trail index library text [] := ⟨nofun, .nil⟩

theorem Trail.inside (hr : Within library r) {ids : List String}
    (h : Trail index library r.body ids) : (r.snippet.id :: ids).IsChain (Links index library) :=
  List.isChain_cons.2 ⟨fun id hid => hr.links (h.first id hid), h.chain⟩

theorem Trail.cons (ht : .found t ∈ Token.pieces text) (hr : t.target? index = some r)
    {ids : List String} (hchain : (r.snippet.id :: ids).IsChain (Links index library)) :
    Trail index library text (r.snippet.id :: ids) := by
  refine ⟨fun id hid => ?_, hchain⟩
  obtain rfl : r.snippet.id = id := Option.some.inj hid
  exact mentions_of_target? ht hr

theorem nodup_enter {id : String} (hstack : stack.Nodup) (hnew : id ∉ stack) :
    (stack ++ [id]).Nodup := by
  rw [← List.concat_eq_append]
  exact hstack.concat hnew

theorem Left.simple (h : Left index stack text t f) (hstack : stack.Nodup) : Simple f := by
  induction h with
  | missing ht hr => exact hstack
  | cyclic ht hr hs => exact ⟨_, rfl, hstack, List.count_eq_one_of_mem hstack hs⟩
  | inside ho hr hs _ ih => exact ih (nodup_enter hstack hs)

theorem Left.exists_trail (hlibrary : index.bundles ⊆ library) (h : Left index stack text t f) :
    ∃ entered, namedIn f = stack ++ entered ∧ Trail index library text entered := by
  induction h with
  | missing ht hr => exact ⟨[], (List.append_nil _).symm, .nil⟩
  | cyclic ht hr hs => exact ⟨_, rfl, .cons ht hr (.singleton _)⟩
  | inside ho hr hs _ ih =>
    obtain ⟨entered, hnamed, htrail⟩ := ih
    refine ⟨_ :: entered, ?_, .cons ho hr (htrail.inside (within_of_target? hlibrary hr))⟩
    rw [hnamed, List.append_assoc]
    rfl

theorem Left.truthful (hlibrary : index.bundles ⊆ library) (hstack : stack.Nodup)
    (h : Left index stack text t f) : Truthful index library stack f := by
  obtain ⟨entered, hnamed, htrail⟩ := h.exists_trail hlibrary
  exact ⟨h.simple hstack, entered, hnamed, htrail.chain⟩

theorem Left.truthful_inside (hlibrary : index.bundles ⊆ library) (hr : Within library r)
    (hstack : stack.Nodup) (hnew : r.snippet.id ∉ stack)
    (h : Left index (stack ++ [r.snippet.id]) r.body t f) : Truthful index library stack f := by
  obtain ⟨entered, hnamed, htrail⟩ := h.exists_trail hlibrary
  refine ⟨h.simple (nodup_enter hstack hnew), r.snippet.id :: entered, ?_, htrail.inside hr⟩
  rw [hnamed, List.append_assoc]
  rfl

section Unwinds

variable {ctx : Context}

theorem unwinds_expand (hlibrary : index.bundles ⊆ library) (hctx : ctx.Agrees)
    (hstack : ctx.stack.Nodup) (text : String) :
    Unwinds index library ctx (expand index text ctx).2 := by
  obtain ⟨onStack, hsame, heq, -⟩ := exists_expand_eq index text hctx
  rw [heq]
  refine ⟨rfl, hsame, _, rfl, fun f hf => ?_⟩
  obtain ⟨t, ht⟩ := mem_findings_expansionOf.1 hf
  exact ht.truthful hlibrary hstack

theorem unwinds_includeSnippet (hlibrary : index.bundles ⊆ library) (hctx : ctx.Agrees)
    (hstack : ctx.stack.Nodup) (hr : Within library r) (hnew : r.snippet.id ∉ ctx.stack)
    (mode : SnippetMode) : Unwinds index library ctx (includeSnippet index r mode ctx).2 := by
  have hinside : ((ctx.record r mode).enter r.snippet.id).stack = ctx.stack ++ [r.snippet.id] :=
    List.reverse_cons
  obtain ⟨onStack, hsame, heq, -⟩ :=
    exists_expand_eq index r.body ((hctx.record r mode).enter r.snippet.id)
  rw [includeSnippet, heq]
  refine ⟨rfl, hctx.leave_enter hnew hsame, _, rfl, fun f hf => ?_⟩
  rw [hinside] at hf
  obtain ⟨t, ht⟩ := mem_findings_expansionOf.1 hf
  exact ht.truthful_inside hlibrary hr hstack hnew

end Unwinds

/-- **Expansion unwinds, and what it finds is true.** In a context whose chain holds no snippet
twice and whose set holds the snippets of the chain, the expansion of a text leaves both as they
were, and so does the inclusion of a snippet that is not being expanded. Each finding that they add
names distinct snippets, of which a cycle names the one that it comes back to once more: first those
of the chain, then those that have been entered, each of which has a version with a token for the
next one named. The versions are those of the index, and the one that is included if it is not. -/
theorem expand_unwinds (index : Index) (ctx : Context) (hctx : ctx.Agrees)
    (hstack : ctx.stack.Nodup) :
    (∀ text, Unwinds index index.bundles ctx (expand index text ctx).2) ∧
    ∀ (r : Resolved) (mode : SnippetMode), r.snippet.id ∉ ctx.stack →
      ∀ library, index.bundles ⊆ library → Within library r →
        Unwinds index library ctx (includeSnippet index r mode ctx).2 := by
  refine ⟨unwinds_expand (List.Subset.refl _) hctx hstack, ?_⟩
  intro r mode hnew library hlibrary hr
  exact unwinds_includeSnippet hlibrary hctx hstack hr hnew mode

/-- Three snippets, the second of which leads back to the first one, and to the third one. -/
def tangle : List Bundle :=
  [.single "a" "\x7b\x7b> b\x7d\x7d", .single "b" "\x7b\x7b> a\x7d\x7d \x7b\x7b> c\x7d\x7d",
    .single "c" "\x7b\x7b> a\x7d\x7d"]

def only (id body : String) : Resolved := ⟨(Bundle.single id body).snippet, .sealed 1 none body ∅⟩

theorem mem_findings_tangle :
    .snippetCycle "a" ["c", "a", "b", "a"] ∈
      (expand (.ofBundles tangle) "\x7b\x7b> a\x7d\x7d" (Context.empty.enter "c")).2.findings := by
  have ha : (⟨"\x7b\x7b> a\x7d\x7d", "a", none⟩ : Token).target? (.ofBundles tangle) =
      some (only "a" "\x7b\x7b> b\x7d\x7d") := (Index.resolve?_eq ..).trans rfl
  have hb : (⟨"\x7b\x7b> b\x7d\x7d", "b", none⟩ : Token).target? (.ofBundles tangle) =
      some (only "b" "\x7b\x7b> a\x7d\x7d \x7b\x7b> c\x7d\x7d") := (Index.resolve?_eq ..).trans rfl
  have hleft : Left (.ofBundles tangle) ["c"] "\x7b\x7b> a\x7d\x7d" ⟨"\x7b\x7b> a\x7d\x7d", "a", none⟩
      (.snippetCycle "a" ["c", "a", "b", "a"]) := by
    refine .inside (Token.mem_all.1 (.head _)) ha (by decide) ?_
    refine .inside (Token.mem_all.1 (.head _)) hb (by decide) ?_
    exact .cyclic (Token.mem_all.1 (.head _)) ha (by decide)
  obtain ⟨onStack, -, heq, -⟩ := exists_expand_eq (.ofBundles tangle) "\x7b\x7b> a\x7d\x7d"
    (Context.agrees_empty.enter "c")
  have hfound := mem_findings_expansionOf.2 ⟨_, hleft⟩
  rw [heq, Context.after, ← Array.mem_toList_iff, Array.toList_appendList]
  exact List.mem_append_right _ hfound

theorem expand_unwinds_tangle :
    let index := Index.ofBundles tangle
    let ctx := Context.empty.enter "c"
    let a := only "a" "\x7b\x7b> b\x7d\x7d"
    ctx.Agrees ∧ ctx.stack.Nodup ∧ a.snippet.id ∉ ctx.stack ∧ index.bundles ⊆ tangle ∧
      Within tangle a ∧
      (expand index "\x7b\x7b> a\x7d\x7d" ctx).2.stack = ["c"] ∧
      Truthful index tangle ["c"] (.snippetCycle "a" ["c", "a", "b", "a"]) ∧
      (includeSnippet index a .inline ctx).2.stack = ["c"] := by
  intro index ctx a
  have hctx : ctx.Agrees := Context.agrees_empty.enter "c"
  have hstack : ctx.stack.Nodup := List.nodup_singleton "c"
  have hnew : a.snippet.id ∉ ctx.stack := by decide
  have hbundles : index.bundles ⊆ tangle := List.Subset.refl _
  have hwithin : Within tangle a := ⟨_, .head _, rfl, .head _⟩
  obtain ⟨hexpand, hinclude⟩ := expand_unwinds index ctx hctx hstack
  have hexpanded := hexpand "\x7b\x7b> a\x7d\x7d"
  refine ⟨hctx, hstack, hnew, hbundles, hwithin, hexpanded.stack, ?_,
    (hinclude a .inline hnew tangle hbundles hwithin).stack⟩
  obtain ⟨added, hfindings, htruthful⟩ := hexpanded.findings
  have hmem := mem_findings_tangle
  rw [hfindings, ← Array.mem_toList_iff, Array.toList_appendList] at hmem
  exact htruthful _ hmem

end DocCompiler.Transclusion
