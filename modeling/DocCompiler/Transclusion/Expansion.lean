import DocCompiler.Diagnostic
import DocCompiler.Snippet.Index
import DocCompiler.Transclusion.Provenance
import DocCompiler.Transclusion.Token

/-! Expansion of transclusion tokens, depth first and from left to right. The bodies being
expanded are kept as a stack of frames, so depth costs memory only. A token that does not
resolve, or whose snippet is already being expanded, stays as it is written. Every step lowers
`Machine.work`, so expansion ends for every library. -/

namespace DocCompiler.Transclusion

open Snippet (Index Resolved)

/-- What an expansion works in: the snippets being expanded around it, the innermost first, the
same as a set, and what has been logged and found so far. -/
structure Context where
  chain : List String
  onStack : Std.HashSet String
  log : ProvenanceLog
  findings : Array Finding

namespace Context

def fresh (log : ProvenanceLog) (findings : Array Finding) : Context := ⟨[], ∅, log, findings⟩

def empty : Context := fresh .empty #[]

/-- The snippets being expanded, outermost first. -/
def stack (ctx : Context) : List String := ctx.chain.reverse

def report (f : Finding) : Context → Context
  | ⟨chain, onStack, log, findings⟩ => ⟨chain, onStack, log, findings.push f⟩

def notFound (ctx : Context) (reference : String) (revision : Json) : Context :=
  let stack := ctx.stack
  ctx.report (.snippetNotFound reference revision stack)

def cycle (ctx : Context) (id : String) : Context :=
  let stack := ctx.stack
  ctx.report (.snippetCycle id (stack ++ [id]))

def record (r : Resolved) (mode : SnippetMode) : Context → Context
  | ⟨chain, onStack, log, findings⟩ => ⟨chain, onStack, log.record r mode, findings⟩

def enter (id : String) : Context → Context
  | ⟨chain, onStack, log, findings⟩ => ⟨id :: chain, onStack.insert id, log, findings⟩

def leave : Context → Context
  | ⟨id :: chain, onStack, log, findings⟩ => ⟨chain, onStack.erase id, log, findings⟩
  | ⟨[], onStack, log, findings⟩ => ⟨[], onStack, log, findings⟩

end Context

def Token.shownRevision (t : Token) : Json :=
  match t.revision with
  | none => .null
  | some (.pinned rev) => .nat rev.toNat
  | some (.invalid raw) => .str raw

def Token.target? (index : Index) (t : Token) : Option Resolved :=
  t.request?.bind (index.resolve? t.identifier ·)

/-- A body being expanded: what is left of it, and its text so far. -/
structure Frame where
  pieces : List (Text.Piece Token)
  out : String

namespace Frame

def of (text : String) : Frame := ⟨Token.pieces text, ""⟩

def write (text : String) : Frame → Frame
  | ⟨pieces, out⟩ => ⟨pieces, out ++ text⟩

end Frame

/-- An expansion under way: the bodies being expanded, from the inside out, and their context. -/
structure Machine where
  frames : List Frame
  context : Context

namespace Machine

def start (text : String) (ctx : Context) : Machine := ⟨[.of text], ctx⟩

def onToken (index : Index) (t : Token) (current : Frame) (around : List Frame) (ctx : Context) :
    Machine :=
  match t.target? index with
  | none => ⟨current.write t.source :: around, ctx.notFound t.identifier t.shownRevision⟩
  | some r =>
    if ctx.onStack.contains r.snippet.id then
      ⟨current.write t.source :: around, ctx.cycle r.snippet.id⟩
    else ⟨.of r.body :: current :: around, (ctx.record r .transclude).enter r.snippet.id⟩

/-- Whether there is nothing left to do: the only body is finished, or there is none. -/
def isDone : Machine → Bool
  | ⟨[⟨[], _⟩], _⟩ | ⟨[], _⟩ => true
  | _ => false

def text : Machine → String
  | ⟨current :: _, _⟩ => current.out
  | ⟨[], _⟩ => ""

/-- One step. A finished inner body goes into the one around it. -/
def step (index : Index) : Machine → Machine
  | ⟨⟨.plain c :: rest, out⟩ :: around, ctx⟩ => ⟨⟨rest, out.push c⟩ :: around, ctx⟩
  | ⟨⟨.found t :: rest, out⟩ :: around, ctx⟩ => onToken index t ⟨rest, out⟩ around ctx
  | ⟨⟨[], done⟩ :: parent :: around, ctx⟩ => ⟨parent.write done :: around, ctx.leave⟩
  | ⟨[⟨[], out⟩], ctx⟩ => ⟨[⟨[], out⟩], ctx⟩
  | ⟨[], ctx⟩ => ⟨[], ctx⟩

/-- How many bundles can still be entered. -/
def free (index : Index) (onStack : Std.HashSet String) : Nat :=
  index.bundles.countP fun b => !onStack.contains b.snippet.id

def widest (index : Index) : Nat :=
  (index.bundles.flatMap fun b => b.versions.map fun v => (Token.pieces v.body).length).foldr max 0

/-- A bound for the steps that one piece can cause when `n` bundles can be entered. -/
def weight (width : Nat) : Nat → Nat
  | 0 => 1
  | n + 1 => width * weight width n + 2

def workOf (index : Index) : Context → List Frame → Nat
  | _, [] => 0
  | ctx, f :: around =>
    f.pieces.length * weight (widest index) (free index ctx.onStack) + 1 +
      workOf index ctx.leave around

def work (index : Index) (m : Machine) : Nat := workOf index m.context m.frames

theorem one_le_weight (width n : Nat) : 1 ≤ weight width n := by
  cases n <;> simp [weight]

theorem weight_mono {m n : Nat} (h : m ≤ n) (width : Nat) : weight width m ≤ weight width n := by
  induction n generalizing m with
  | zero => exact Nat.le_of_eq (by rw [Nat.le_zero.1 h])
  | succ n ih =>
    cases m with
    | zero => exact one_le_weight width (n + 1)
    | succ m =>
      simp only [weight]
      exact Nat.add_le_add_right (Nat.mul_le_mul_left _ (ih (Nat.le_of_succ_le_succ h))) 2

theorem le_foldr_max {l : List Nat} {n : Nat} (h : n ∈ l) : n ≤ l.foldr max 0 := by
  induction l with
  | nil => cases h
  | cons a l ih =>
    rw [List.foldr_cons]
    rcases List.mem_cons.1 h with rfl | h
    · exact Nat.le_max_left ..
    · exact Nat.le_trans (ih h) (Nat.le_max_right ..)

end Machine

theorem version_mem_of_pick? {b : Snippet.Bundle} {revision : Option UInt32} {r : Resolved}
    (h : b.pick? revision = some r) : r.snippet = b.snippet ∧ r.version ∈ b.versions := by
  obtain ⟨v, hv, rfl⟩ := Option.map_eq_some_iff.1 h
  exact ⟨rfl, List.mem_of_find?_eq_some hv⟩

theorem bundle_of_resolve? {index : Index} {reference : String} {revision : Option UInt32}
    {r : Resolved} (h : index.resolve? reference revision = some r) :
    ∃ b ∈ index.bundles, r.snippet = b.snippet ∧ r.version ∈ b.versions := by
  rw [Index.resolve?] at h
  split at h
  case h_1 bundle hb =>
    rw [index.byId_eq] at hb
    exact ⟨bundle, List.mem_of_find?_eq_some hb, version_mem_of_pick? h⟩
  case h_2 =>
    obtain ⟨bundle, hb, hr⟩ := Option.bind_eq_some_iff.1 h
    rw [index.byPath_eq] at hb
    exact ⟨bundle, List.mem_of_find?_eq_some hb, version_mem_of_pick? hr⟩

theorem bundle_of_target? {index : Index} {t : Token} {r : Resolved}
    (h : t.target? index = some r) :
    ∃ b ∈ index.bundles, r.snippet = b.snippet ∧ r.version ∈ b.versions := by
  obtain ⟨revision, _, hr⟩ := Option.bind_eq_some_iff.1 h
  exact bundle_of_resolve? hr

namespace Machine

theorem pieces_le_widest {index : Index} {b : Snippet.Bundle} {v : Snippet.Version}
    (hb : b ∈ index.bundles) (hv : v ∈ b.versions) :
    (Token.pieces v.body).length ≤ widest index :=
  le_foldr_max (List.mem_flatMap.2 ⟨b, hb, List.mem_map.2 ⟨v, hv, rfl⟩⟩)

theorem free_insert_lt {index : Index} {onStack : Std.HashSet String} {b : Snippet.Bundle}
    (hb : b ∈ index.bundles) (h : onStack.contains b.snippet.id = false) :
    free index (onStack.insert b.snippet.id) < free index onStack := by
  have sub : (onStack.insert b.snippet.id).contains b.snippet.id = true := by simp
  unfold free
  generalize index.bundles = bundles at hb
  induction bundles with
  | nil => cases hb
  | cons a rest ih =>
    have le : ∀ l : List Snippet.Bundle,
        l.countP (fun x => !(onStack.insert b.snippet.id).contains x.snippet.id) ≤
          l.countP (fun x => !onStack.contains x.snippet.id) := fun l =>
      List.countP_mono_left fun x _ hx => by
        simp only [Std.HashSet.contains_insert, Bool.not_eq_true', Bool.or_eq_false_iff] at hx
        simp [hx.2]
    rw [List.countP_cons, List.countP_cons]
    rcases List.mem_cons.1 hb with rfl | hb
    · have := le rest
      simp only [sub, h, Bool.not_true, Bool.not_false, Bool.false_eq_true, ↓reduceIte]
      omega
    · have h1 := ih hb
      have h2 := le [a]
      simp only [List.countP_cons, List.countP_nil, Nat.zero_add] at h2
      omega

theorem free_congr {index : Index} {s t : Std.HashSet String}
    (h : ∀ id, s.contains id = t.contains id) : free index s = free index t := by
  simp only [free, h]

theorem contains_erase_insert {s : Std.HashSet String} {id : String} (h : s.contains id = false)
    (x : String) : ((s.insert id).erase id).contains x = s.contains x := by
  rw [Std.HashSet.contains_erase, Std.HashSet.contains_insert]
  by_cases hx : id = x
  · subst hx; simp [h]
  · simp [beq_eq_false_iff_ne.2 hx]

theorem workOf_congr {index : Index} {frames : List Frame} {a b : Context}
    (hc : a.chain = b.chain) (h : ∀ id, a.onStack.contains id = b.onStack.contains id) :
    workOf index a frames = workOf index b frames := by
  induction frames generalizing a b with
  | nil => rfl
  | cons f around ih =>
    obtain ⟨chain, onStack, log, findings⟩ := a
    obtain ⟨_, onStack', log', findings'⟩ := b
    subst hc
    simp only [workOf, free_congr h]
    congr 1
    cases chain with
    | nil => exact ih rfl h
    | cons id chain =>
      refine ih rfl fun x => ?_
      simp only [Context.leave, Std.HashSet.contains_erase]
      rw [h]

/-- Entering a snippet costs less than the token that asks for it was worth. -/
theorem workOf_enter_lt {index : Index} {r : Resolved} {rest : List (Text.Piece Token)}
    {out : String} {around : List Frame} {ctx : Context} {t : Token}
    (hr : t.target? index = some r) (hfree : ctx.onStack.contains r.snippet.id = false) :
    workOf index ((ctx.record r .transclude).enter r.snippet.id)
        (.of r.body :: ⟨rest, out⟩ :: around) <
      workOf index ctx (⟨.found t :: rest, out⟩ :: around) := by
  obtain ⟨b, hb, hs, hv⟩ := bundle_of_target? hr
  rw [hs] at hfree ⊢
  have hleave : workOf index ((ctx.record r .transclude).enter b.snippet.id).leave
      (⟨rest, out⟩ :: around) = workOf index ctx (⟨rest, out⟩ :: around) :=
    workOf_congr rfl (contains_erase_insert hfree)
  have hlt := free_insert_lt hb hfree
  obtain ⟨n, hn⟩ : ∃ n, free index ctx.onStack = n + 1 := ⟨_, (Nat.succ_pred (by omega)).symm⟩
  have hle := weight_mono (Nat.le_of_lt_succ (hn ▸ hlt)) (widest index)
  have hmul := Nat.mul_le_mul
    (show (Frame.of r.body).pieces.length ≤ widest index from pieces_le_widest hb hv) hle
  have hn' : weight (widest index) (n + 1) = widest index * weight (widest index) n + 2 := rfl
  rw [workOf, hleave]
  simp only [workOf, List.length_cons, Nat.succ_mul, hn, Context.record, Context.enter]
  omega

theorem work_step_lt {index : Index} {m : Machine} (h : m.isDone = false) :
    work index (m.step index) < work index m := by
  obtain ⟨frames, ctx⟩ := m
  have hw := one_le_weight (widest index) (free index ctx.onStack)
  match frames with
  | ⟨.plain c :: rest, out⟩ :: around =>
    simp only [step, work, workOf, List.length_cons, Nat.succ_mul]
    omega
  | ⟨.found t :: rest, out⟩ :: around =>
    have stays (ctx' : Context) (hc : ctx'.chain = ctx.chain) (hs : ctx'.onStack = ctx.onStack) :
        workOf index ctx' (Frame.write t.source ⟨rest, out⟩ :: around) <
          workOf index ctx (⟨.found t :: rest, out⟩ :: around) := by
      rw [workOf_congr hc fun id => by rw [hs]]
      simp only [Frame.write, workOf, List.length_cons, Nat.succ_mul]
      omega
    rw [step, onToken]
    split
    case h_1 => exact stays _ rfl rfl
    case h_2 r hr =>
      split
      case isTrue => exact stays _ rfl rfl
      case isFalse hfree => exact workOf_enter_lt hr (Bool.eq_false_iff.2 hfree)
  | ⟨[], done⟩ :: ⟨pieces, out⟩ :: around =>
    simp only [step, work, workOf, Frame.write]
    omega
  | [⟨[], out⟩] => cases h
  | [] => cases h

def run (index : Index) (m : Machine) : Machine :=
  if _h : m.isDone then m else run index (m.step index)
termination_by work index m
decreasing_by exact work_step_lt (Bool.eq_false_iff.2 _h)

end Machine

def expand (index : Index) (text : String) (ctx : Context) : String × Context :=
  let m := (Machine.start text ctx).run index
  (m.text, m.context)

/-- Logs the use of a snippet and expands its body; whether it is being expanded already is for
the caller to know. -/
def includeSnippet (index : Index) (r : Resolved) (mode : SnippetMode) (ctx : Context) :
    String × Context :=
  let (text, ctx) := expand index r.body ((ctx.record r mode).enter r.snippet.id)
  (text, ctx.leave)

end DocCompiler.Transclusion
