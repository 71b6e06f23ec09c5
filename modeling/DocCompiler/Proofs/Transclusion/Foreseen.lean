import DocCompiler.Proofs.Preflight.Resolution
import DocCompiler.Proofs.Transclusion.Grammar
import DocCompiler.Proofs.Transclusion.Recursion
import Mathlib.Logic.Relation

/-! What an expansion can find, in terms of what the document reaches. Where no bundle is shadowed,
a snippet that is opened is the one its need resolves to; so every body that is expanded is a
reached one, and the snippets around a body contain, one through the other, what the body
mentions. -/

namespace DocCompiler.Transclusion

open Preflight (Contains Mention Mentioned Need ReachedVersion Unshadowed)
open Snippet (Index Resolved)
open Text (Piece)

theorem mem_all {m : Mention} {text : String} :
    m ∈ Mention.all text ↔ ∃ t, .found t ∈ Token.pieces text ∧ Mention.ofToken t = m := by
  simp only [Mention.all, List.mem_map, Token.mem_all]

theorem mention_mem_all {t : Token} {text : String} (h : .found t ∈ Token.pieces text) :
    Mention.ofToken t ∈ Mention.all text :=
  mem_all.2 ⟨t, h, rfl⟩

variable {index : Index} {blocks : List Block}

/-- A finding that can be told from what a document reaches, without expanding anything. -/
def Foreseen (index : Index) (blocks : List Block) : Finding → Prop
  | .snippetNotFound reference _ _ => ∃ m, Mentioned index blocks m ∧ m.target? index = none ∧
    m.reference = reference
  | .snippetCycle .. => ∃ id, Relation.TransGen (Contains index blocks) id id
  | .variableMissing _ | .formatterNotFound .. => True

/-- Pieces of a block or of a reached body, with every snippet around them containing what they
mention. -/
structure Placed (index : Index) (blocks : List Block) (stack : List String)
    (pieces : List (Piece Token)) : Prop where
  mentioned : ∀ t, .found t ∈ pieces → Mentioned index blocks (.ofToken t)
  contained : ∀ id ∈ stack, ∀ t, .found t ∈ pieces → ∀ r, t.target? index = some r →
    Relation.TransGen (Contains index blocks) id r.snippet.id

theorem Placed.tail {stack : List String} {p : Piece Token} {rest : List (Piece Token)}
    (h : Placed index blocks stack (p :: rest)) : Placed index blocks stack rest :=
  ⟨fun t ht => h.mentioned t (.tail _ ht), fun id hid t ht => h.contained id hid t (.tail _ ht)⟩

theorem placed_body {stack : List String} {r : Resolved} (hreached : ReachedVersion index blocks r)
    (hstack : ∀ id ∈ stack, Relation.TransGen (Contains index blocks) id r.snippet.id) :
    Placed index blocks (stack ++ [r.snippet.id]) (Token.pieces r.body) := by
  have hcontains : ∀ t, .found t ∈ Token.pieces r.body → ∀ r', t.target? index = some r' →
      Contains index blocks r.snippet.id r'.snippet.id := fun t ht r' hr' =>
    Preflight.contains_iff.2 ⟨r, .ofToken t, r', hreached, mention_mem_all ht, hr', rfl, rfl⟩
  refine ⟨fun t ht => hreached.mentioned (mention_mem_all ht), ?_⟩
  intro id hmem t ht r' hr'
  rcases List.mem_append.1 hmem with hmem | hmem
  · exact (hstack id hmem).tail (hcontains t ht r' hr')
  · rw [List.mem_singleton.1 hmem]
    exact .single (hcontains t ht r' hr')

theorem foreseen_of_mem_findings (h : Unshadowed index blocks)
    (stack : List String) (pieces : List (Piece Token)) :
    Placed index blocks stack pieces →
      ∀ f ∈ (expandPieces index stack pieces).findings, Foreseen index blocks f := by
  induction stack, pieces using expandPieces.induct index with
  | case1 stack =>
    intro _ f hf
    rw [expandPieces] at hf
    cases hf
  | case2 stack c rest ih =>
    intro hplaced f hf
    rw [expandPieces] at hf
    exact ih hplaced.tail f hf
  | case3 stack t rest hr ih =>
    intro hplaced f hf
    rw [expandPieces_missing hr] at hf
    rcases List.mem_cons.1 hf with rfl | hf
    · exact ⟨.ofToken t, hplaced.mentioned t (.head _), hr, rfl⟩
    · exact ih hplaced.tail f hf
  | case4 stack t rest r hr hs ih =>
    intro hplaced f hf
    rw [expandPieces_cycle hr hs] at hf
    rcases List.mem_cons.1 hf with rfl | hf
    · exact ⟨_, hplaced.contained _ hs t (.head _) r hr⟩
    · exact ih hplaced.tail f hf
  | case5 stack t rest r hr hs ih_body ih =>
    intro hplaced f hf
    rw [expandPieces_inside hr hs] at hf
    have hreached := h.reachedVersion (hplaced.mentioned t (.head _)) hr
    rcases List.mem_append.1 hf with hf | hf
    · refine ih_body (placed_body hreached fun id hmem => ?_) f hf
      exact hplaced.contained id hmem t (.head _) r hr
    · exact ih hplaced.tail f hf

end DocCompiler.Transclusion
