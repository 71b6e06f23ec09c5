import DocCompiler.Proofs.Transclusion.Runs

/-! Expansion as a recursion on the text and the stack of snippets being expanded. The machine
keeps no calls but frames, a chain of ids and a set; a run through a frame comes to what the
recursive call on its body comes to, and leaves chain and set as they were. -/

namespace DocCompiler.Transclusion

open Snippet (Index Resolved)
open Text (Piece)

/-- What a text expands to: the text, what is found in it, and the versions whose use is logged,
in order. -/
structure Expansion where
  text : String
  findings : List Finding
  opened : List Resolved

namespace Expansion

def empty : Expansion := ⟨"", [], []⟩

def verbatim (text : String) : Expansion := ⟨text, [], []⟩

def kept (t : Token) (reason : Finding) : Expansion := ⟨t.source, [reason], []⟩

def inside (r : Resolved) (body : Expansion) : Expansion :=
  ⟨body.text, body.findings, r :: body.opened⟩

def append (a b : Expansion) : Expansion :=
  ⟨a.text ++ b.text, a.findings ++ b.findings, a.opened ++ b.opened⟩

instance : Append Expansion := ⟨append⟩

@[simp] theorem text_append (a b : Expansion) : (a ++ b).text = a.text ++ b.text := rfl

@[simp] theorem findings_append (a b : Expansion) :
    (a ++ b).findings = a.findings ++ b.findings := rfl

@[simp] theorem opened_append (a b : Expansion) : (a ++ b).opened = a.opened ++ b.opened := rfl

end Expansion

/-- How many bundles can still be entered from a stack. -/
def unentered (index : Index) (stack : List String) : Nat :=
  Machine.free index (.ofList stack)

theorem unentered_lt {index : Index} {stack : List String} {t : Token} {r : Resolved}
    (hr : t.target? index = some r) (hnew : r.snippet.id ∉ stack) :
    unentered index (stack ++ [r.snippet.id]) < unentered index stack := by
  obtain ⟨b, hb, hs, -⟩ := bundle_of_target? hr
  rw [hs] at hnew ⊢
  have hfree : (Std.HashSet.ofList stack).contains b.snippet.id = false := by simpa using hnew
  have hlt := Machine.free_insert_lt hb hfree
  refine Nat.lt_of_le_of_lt (Nat.le_of_eq (Machine.free_congr fun id => ?_)) hlt
  rw [Bool.eq_iff_iff, Std.HashSet.contains_insert, Std.HashSet.contains_ofList,
    Std.HashSet.contains_ofList]
  simp only [List.contains_eq_mem, List.mem_append, List.mem_singleton, decide_eq_true_eq,
    Bool.or_eq_true, beq_iff_eq]
  rw [or_comm, eq_comm]

/-- The expansion of the pieces of a text inside the snippets of a stack. -/
def expandPieces (index : Index) (stack : List String) : List (Piece Token) → Expansion
  | [] => .empty
  | .plain c :: rest => .verbatim (String.singleton c) ++ expandPieces index stack rest
  | .found t :: rest =>
    match _hr : t.target? index with
    | none =>
      .kept t (.snippetNotFound t.identifier t.shownRevision stack) ++
        expandPieces index stack rest
    | some r =>
      if _hs : r.snippet.id ∈ stack then
        .kept t (.snippetCycle r.snippet.id (stack ++ [r.snippet.id])) ++
          expandPieces index stack rest
      else
        .inside r (expandPieces index (stack ++ [r.snippet.id]) (Token.pieces r.body)) ++
          expandPieces index stack rest
termination_by pieces => (unentered index stack, pieces.length)
decreasing_by
  · exact .right _ (Nat.lt_succ_self _)
  · exact .right _ (Nat.lt_succ_self _)
  · exact .right _ (Nat.lt_succ_self _)
  · exact .left _ _ (unentered_lt _hr _hs)
  · exact .right _ (Nat.lt_succ_self _)

section Equations

variable {index : Index} {stack : List String} {t : Token} {r : Resolved}
  {rest : List (Piece Token)}

theorem expandPieces_missing (hr : t.target? index = none) :
    expandPieces index stack (.found t :: rest) =
      .kept t (.snippetNotFound t.identifier t.shownRevision stack) ++
        expandPieces index stack rest := by
  rw [expandPieces]
  split
  case h_1 => rfl
  case h_2 r' hr' => rw [hr] at hr'; cases hr'

theorem expandPieces_cycle (hr : t.target? index = some r) (hs : r.snippet.id ∈ stack) :
    expandPieces index stack (.found t :: rest) =
      .kept t (.snippetCycle r.snippet.id (stack ++ [r.snippet.id])) ++
        expandPieces index stack rest := by
  rw [expandPieces]
  split
  case h_1 hr' => rw [hr] at hr'; cases hr'
  case h_2 r' hr' =>
    obtain rfl : r = r' := Option.some.inj (hr.symm.trans hr')
    exact dif_pos hs

theorem expandPieces_inside (hr : t.target? index = some r) (hs : r.snippet.id ∉ stack) :
    expandPieces index stack (.found t :: rest) =
      .inside r (expandPieces index (stack ++ [r.snippet.id]) (Token.pieces r.body)) ++
        expandPieces index stack rest := by
  rw [expandPieces]
  split
  case h_1 hr' => rw [hr] at hr'; cases hr'
  case h_2 r' hr' =>
    obtain rfl : r = r' := Option.some.inj (hr.symm.trans hr')
    exact dif_neg hs

end Equations

@[simp] theorem findings_expandPieces_nil (index : Index) (stack : List String) :
    (expandPieces index stack []).findings = [] := by
  rw [expandPieces]
  rfl

theorem findings_expandPieces_cons (index : Index) (stack : List String) (p : Piece Token)
    (rest : List (Piece Token)) :
    (expandPieces index stack (p :: rest)).findings =
      (expandPieces index stack [p]).findings ++ (expandPieces index stack rest).findings := by
  cases p with
  | plain c => simp only [expandPieces, Expansion.findings_append]; rfl
  | found t =>
    cases hr : t.target? index with
    | none => simp [expandPieces_missing hr]
    | some r =>
      by_cases hs : r.snippet.id ∈ stack
      · simp [expandPieces_cycle hr hs]
      · simp [expandPieces_inside hr hs]

theorem mem_findings_expandPieces {index : Index} {stack : List String}
    {pieces : List (Piece Token)} {f : Finding} :
    f ∈ (expandPieces index stack pieces).findings ↔
      ∃ p ∈ pieces, f ∈ (expandPieces index stack [p]).findings := by
  induction pieces with
  | nil => simp
  | cons p rest ih =>
    rw [findings_expandPieces_cons, List.mem_append, ih]
    simp only [List.mem_cons, exists_eq_or_imp]

theorem forall_mem_findings {index : Index} {P : Finding → Prop}
    (hmissing : ∀ (t : Token) (stack : List String),
      P (.snippetNotFound t.identifier t.shownRevision stack))
    (hcycle : ∀ (id : String) (stack : List String), P (.snippetCycle id stack))
    (stack : List String) (pieces : List (Piece Token)) :
    ∀ f ∈ (expandPieces index stack pieces).findings, P f := by
  induction stack, pieces using expandPieces.induct index with
  | case1 stack =>
    intro f hf
    rw [expandPieces] at hf
    cases hf
  | case2 stack c rest ih =>
    intro f hf
    rw [expandPieces] at hf
    exact ih f hf
  | case3 stack t rest hr ih =>
    intro f hf
    rw [expandPieces_missing hr] at hf
    rcases List.mem_cons.1 hf with rfl | hf
    · exact hmissing t stack
    · exact ih f hf
  | case4 stack t rest r hr hs ih =>
    intro f hf
    rw [expandPieces_cycle hr hs] at hf
    rcases List.mem_cons.1 hf with rfl | hf
    · exact hcycle _ _
    · exact ih f hf
  | case5 stack t rest r hr hs ih_body ih =>
    intro f hf
    rw [expandPieces_inside hr hs] at hf
    rcases List.mem_append.1 hf with hf | hf
    · exact ih_body f hf
    · exact ih f hf

def expansionOf (index : Index) (stack : List String) (text : String) : Expansion :=
  expandPieces index stack (Token.pieces text)

namespace Context

/-- The snippets of the chain are those of the set. -/
def Agrees (ctx : Context) : Prop := ∀ id, ctx.onStack.contains id = true ↔ id ∈ ctx.stack

/-- A context after an expansion in it, but for the set. -/
def after (ctx : Context) (onStack : Std.HashSet String) (e : Expansion) : Context :=
  ⟨ctx.chain, onStack, e.opened.foldl (·.record · .transclude) ctx.log, ctx.findings ++ e.findings⟩

theorem after_after (ctx : Context) (s s' : Std.HashSet String) (a b : Expansion) :
    (ctx.after s a).after s' b = ctx.after s' (a ++ b) := by
  have hfindings : ctx.findings ++ a.findings ++ b.findings =
      ctx.findings ++ (a.findings ++ b.findings) := Array.ext' (by simp)
  simp [after, hfindings]

theorem agrees_empty : empty.Agrees := fun id => by simp [empty, fresh, stack]

theorem Agrees.contains_eq_false {ctx : Context} (h : ctx.Agrees) {id : String}
    (hid : id ∉ ctx.stack) : ctx.onStack.contains id = false :=
  Bool.eq_false_iff.2 fun hc => hid ((h id).1 hc)

theorem Agrees.record {ctx : Context} (h : ctx.Agrees) (r : Resolved) (mode : SnippetMode) :
    (ctx.record r mode).Agrees := h

theorem Agrees.enter {ctx : Context} (h : ctx.Agrees) (id : String) : (ctx.enter id).Agrees := by
  intro x
  have hx := h x
  simp only [stack, List.mem_reverse] at hx
  simp only [Context.enter, stack, Std.HashSet.contains_insert, Bool.or_eq_true, beq_iff_eq, hx,
    List.mem_reverse, List.mem_cons, eq_comm (a := id)]

/-- Leaving what has been entered leads back, whatever has been logged and found meanwhile. -/
theorem Agrees.leave_enter {ctx : Context} {onStack : Std.HashSet String} {id : String}
    (h : ctx.Agrees) (hnew : id ∉ ctx.stack)
    (hs : ∀ x, onStack.contains x = (ctx.onStack.insert id).contains x) :
    ∀ x, (onStack.erase id).contains x = ctx.onStack.contains x := by
  intro x
  rw [Std.HashSet.contains_erase, hs x, ← Std.HashSet.contains_erase]
  exact Machine.contains_erase_insert (h.contains_eq_false hnew) x

theorem Agrees.congr {ctx ctx' : Context} (h : ctx.Agrees) (hc : ctx'.chain = ctx.chain)
    (hs : ∀ x, ctx'.onStack.contains x = ctx.onStack.contains x) : ctx'.Agrees := by
  intro x
  rw [hs x, stack, hc]
  exact h x

end Context

namespace Machine

variable {index : Index}

/-- From a frame with these pieces on, the machine comes to the end of the frame with `e`. -/
def Ends (index : Index) (pieces : List (Piece Token)) (ctx : Context) (e : Expansion) : Prop :=
  ∀ (out : String) (around : List Frame), ∃ onStack : Std.HashSet String,
    (∀ id, onStack.contains id = ctx.onStack.contains id) ∧
      Runs index ⟨⟨pieces, out⟩ :: around, ctx⟩ e.opened
        ⟨⟨[], out ++ e.text⟩ :: around, ctx.after onStack e⟩

theorem ends_nil (ctx : Context) : Ends index [] ctx .empty := by
  intro out around
  refine ⟨ctx.onStack, fun _ => rfl, ?_⟩
  simpa [Context.after, Expansion.empty] using Runs.refl _

theorem ends_plain {c : Char} {rest : List (Piece Token)} {ctx : Context} {e : Expansion}
    (h : Ends index rest ctx e) :
    Ends index (.plain c :: rest) ctx (.verbatim (String.singleton c) ++ e) := by
  intro out around
  obtain ⟨onStack, hsame, hrun⟩ := h (out.push c) around
  rw [String.push_eq_append, String.append_assoc] at hrun
  exact ⟨onStack, hsame, .one rfl rfl hrun⟩

theorem ends_kept {t : Token} {rest : List (Piece Token)} {ctx : Context} {e : Expansion}
    {f : Finding} (hnone : ∀ current around, opened? index ⟨⟨.found t :: rest, current⟩ :: around, ctx⟩ = none)
    (hstep : ∀ out around, onToken index t ⟨rest, out⟩ around ctx =
      ⟨Frame.write t.source ⟨rest, out⟩ :: around, ctx.report f⟩)
    (h : Ends index rest (ctx.report f) e) :
    Ends index (.found t :: rest) ctx (.kept t f ++ e) := by
  intro out around
  obtain ⟨onStack, hsame, hrun⟩ := h (out ++ t.source) around
  rw [String.append_assoc] at hrun
  refine ⟨onStack, hsame, .one rfl (hnone _ _) ?_⟩
  rw [step, hstep]
  simpa [Context.after, Context.report, Frame.write, Expansion.kept] using hrun

/-- A token whose snippet is opened: the machine comes to the end of its body and goes on. -/
theorem ends_inside {t : Token} {r : Resolved} {rest : List (Piece Token)} {ctx : Context}
    {body e : Expansion} (hr : t.target? index = some r) (hctx : ctx.Agrees)
    (hnew : r.snippet.id ∉ ctx.stack)
    (hbody : Ends index (Token.pieces r.body) ((ctx.record r .transclude).enter r.snippet.id) body)
    (h : ∀ onStack, (∀ id, onStack.contains id = ctx.onStack.contains id) →
      Ends index rest (ctx.after onStack (.inside r body)) e) :
    Ends index (.found t :: rest) ctx (.inside r body ++ e) := by
  intro out around
  have hfree := hctx.contains_eq_false hnew
  obtain ⟨onStack, hsame, hinner⟩ := hbody "" (⟨rest, out⟩ :: around)
  have hleft := hctx.leave_enter hnew hsame
  obtain ⟨onStack', hsame', houter⟩ := h (onStack.erase r.snippet.id) hleft (out ++ body.text) around
  refine ⟨onStack', fun id => (hsame' id).trans (hleft id), ?_⟩
  rw [String.append_assoc] at houter
  have hopen : opened? index ⟨⟨.found t :: rest, out⟩ :: around, ctx⟩ = some r := by
    simp [opened?, hr, hfree]
  have hstep : step index ⟨⟨.found t :: rest, out⟩ :: around, ctx⟩ =
      ⟨.of r.body :: ⟨rest, out⟩ :: around, (ctx.record r .transclude).enter r.snippet.id⟩ := by
    simp [step, onToken, hr, hfree]
  -- the step into the body, the body, the step out of it, and what follows
  have hback : Runs index
      ⟨⟨[], "" ++ body.text⟩ :: ⟨rest, out⟩ :: around,
        ((ctx.record r .transclude).enter r.snippet.id).after onStack body⟩ e.opened
      ⟨⟨[], out ++ (body.text ++ e.text)⟩ :: around,
        (ctx.after (onStack.erase r.snippet.id) (.inside r body)).after onStack' e⟩ := by
    refine .one rfl rfl ?_
    rw [step, Frame.write, String.empty_append]
    exact houter
  have hrun := Runs.step rfl (hstep ▸ hinner.trans hback)
  rw [hopen, Context.after_after] at hrun
  exact hrun

/-- From a frame on, the machine comes to the end of the frame with what the recursion yields. -/
theorem ends_expandPieces (index : Index) (stack : List String) (pieces : List (Piece Token)) :
    ∀ ctx : Context, ctx.stack = stack → ctx.Agrees →
      Ends index pieces ctx (expandPieces index stack pieces) := by
  induction stack, pieces using expandPieces.induct index with
  | case1 stack =>
    intro ctx _ _
    rw [expandPieces]
    exact ends_nil ctx
  | case2 stack c rest ih =>
    intro ctx hstack hctx
    rw [expandPieces]
    exact ends_plain (ih ctx hstack hctx)
  | case3 stack t rest hr ih =>
    rintro ctx rfl hctx
    rw [expandPieces_missing hr]
    refine ends_kept ?_ ?_ (ih _ rfl hctx)
    · intro current around
      simp [opened?, hr]
    · intro out around
      simp [onToken, hr, Context.notFound]
  | case4 stack t rest r hr hs ih =>
    rintro ctx rfl hctx
    rw [expandPieces_cycle hr hs]
    have hon := (hctx _).2 hs
    refine ends_kept ?_ ?_ (ih _ rfl hctx)
    · intro current around
      simp only [opened?, hr, Option.filter_some, hon, Bool.not_true, Bool.false_eq_true,
        ↓reduceIte]
    · intro out around
      simp [onToken, hr, hon, Context.cycle]
  | case5 stack t rest r hr hs ih_body ih =>
    rintro ctx rfl hctx
    rw [expandPieces_inside hr hs]
    have hin := ih_body ((ctx.record r .transclude).enter r.snippet.id)
      (by simp [Context.stack, Context.enter, Context.record])
      ((hctx.record r .transclude).enter _)
    exact ends_inside hr hctx hs hin fun onStack hsame => ih _ rfl (hctx.congr rfl hsame)

end Machine

theorem exists_expand_eq (index : Index) (text : String) {ctx : Context} (hctx : ctx.Agrees) :
    ∃ onStack, (∀ id, onStack.contains id = ctx.onStack.contains id) ∧
      expand index text ctx = ((expansionOf index ctx.stack text).text,
        ctx.after onStack (expansionOf index ctx.stack text)) ∧
      Machine.Runs index (.start text ctx) (expansionOf index ctx.stack text).opened
        ⟨[⟨[], (expansionOf index ctx.stack text).text⟩],
          ctx.after onStack (expansionOf index ctx.stack text)⟩ := by
  obtain ⟨onStack, hsame, hrun⟩ :=
    Machine.ends_expandPieces index ctx.stack (Token.pieces text) ctx rfl hctx "" []
  rw [String.empty_append] at hrun
  refine ⟨onStack, hsame, ?_, hrun⟩
  have hend : (Machine.start text ctx).run index = _ := Machine.run_eq_of_runs hrun rfl
  rw [expand, hend]
  rfl

/-- **Expansion is the recursion.** In a context whose set holds the snippets of its chain, some
run from the start is a whole run; it logs the versions that the recursion opens, and `expand`
yields the text of the recursion, its findings after those of the context, and the log with those
versions recorded. -/
theorem expand_eq_recursion (index : Index) (text : String) (ctx : Context) (hctx : ctx.Agrees) :
    let e := expansionOf index ctx.stack text
    (∃ m, Machine.Runs index (.start text ctx) e.opened m ∧ m.isDone = true ∧
      expand index text ctx = (m.text, m.context)) ∧
    (expand index text ctx).1 = e.text ∧
    (expand index text ctx).2.findings = ctx.findings ++ e.findings ∧
    (expand index text ctx).2.log = e.opened.foldl (·.record · .transclude) ctx.log ∧
    (expand index text ctx).2.stack = ctx.stack ∧ (expand index text ctx).2.Agrees := by
  obtain ⟨onStack, hsame, heq, hrun⟩ := exists_expand_eq index text hctx
  refine ⟨⟨_, hrun, rfl, heq⟩, ?_⟩
  rw [heq]
  exact ⟨rfl, rfl, rfl, rfl, hctx.congr rfl hsame⟩

theorem expand_eq_recursion_inside :
    let index := Index.ofBundles
      [.single "a" "x \x7b\x7b> b\x7d\x7d", .single "b" "y \x7b\x7b> a\x7d\x7d"]
    let ctx := Context.empty.enter "a"
    let e := expansionOf index ["a"] "\x7b\x7b> b\x7d\x7d"
    ctx.Agrees ∧ (expand index "\x7b\x7b> b\x7d\x7d" ctx).1 = e.text :=
  have h := Context.agrees_empty.enter "a"
  ⟨h, (expand_eq_recursion _ _ _ h).2.1⟩

end DocCompiler.Transclusion
