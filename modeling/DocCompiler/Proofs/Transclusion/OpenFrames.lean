import DocCompiler.Proofs.Transclusion.Recursion
import Mathlib.Data.Finset.Card
import Mathlib.Data.Finset.Dedup

/-! How many bodies an expansion has open at once. Apart from the text itself, an open body is that
of a snippet on the chain; ids on the chain are distinct and name bundles, whichever path or
revision led to them, so there are no more of them than ids in the library. For the same reason the
chain is never shorter than the frames need, and a run ends with its last frame still there. -/

namespace DocCompiler.Transclusion

open Snippet (Index Resolved)
open Text (Piece)

namespace Machine

variable {index : Index} {m m' : Machine} {opened : List Resolved}

/-- Each frame but the outermost belongs to a snippet on the chain. -/
structure Nested (index : Index) (m : Machine) : Prop where
  matched : m.frames.length = m.context.chain.length + 1
  distinct : m.context.chain.Nodup
  known : ∀ id ∈ m.context.chain, id ∈ index.bundles.map (·.snippet.id)
  agrees : m.context.Agrees

theorem nested_start (index : Index) (text : String) : Nested index (start text .empty) :=
  ⟨rfl, .nil, fun _ h => absurd h List.not_mem_nil, Context.agrees_empty⟩

theorem Nested.stay {f f' : Frame} {around : List Frame} {ctx ctx' : Context}
    (h : Nested index ⟨f :: around, ctx⟩) (hchain : ctx'.chain = ctx.chain)
    (hset : ctx'.onStack = ctx.onStack) : Nested index ⟨f' :: around, ctx'⟩ :=
  ⟨by simpa [hchain] using h.matched, by simpa [hchain] using h.distinct,
    by simpa [hchain] using h.known, h.agrees.congr hchain fun _ => by rw [hset]⟩

theorem Nested.enter {f inner : Frame} {around : List Frame} {ctx : Context} {id : String}
    (h : Nested index ⟨f :: around, ctx⟩) (hid : id ∈ index.bundles.map (·.snippet.id))
    (hfree : ctx.onStack.contains id = false) :
    Nested index ⟨inner :: f :: around, ctx.enter id⟩ := by
  have hnew : id ∉ ctx.chain := by
    intro hmem
    have := (h.agrees id).2 (by simpa [Context.stack] using hmem)
    rw [hfree] at this
    cases this
  refine ⟨by simpa [Context.enter] using h.matched, ?_, ?_, h.agrees.enter id⟩
  · exact List.nodup_cons.2 ⟨hnew, h.distinct⟩
  · intro x hx
    rcases List.mem_cons.1 hx with rfl | hx
    · exact hid
    · exact h.known x hx

theorem Nested.leave {f f' parent : Frame} {around : List Frame} {ctx : Context}
    (h : Nested index ⟨f :: parent :: around, ctx⟩) :
    Nested index ⟨f' :: around, ctx.leave⟩ := by
  obtain ⟨chain, onStack, log, findings⟩ := ctx
  cases chain with
  | nil => exact absurd h.matched (by simp)
  | cons id chain =>
    obtain ⟨hid, hdistinct⟩ := List.nodup_cons.1 h.distinct
    refine ⟨by simpa [Context.leave] using h.matched, hdistinct, ?_, ?_⟩
    · intro x hx
      exact h.known x (List.mem_cons_of_mem id hx)
    · intro x
      have hx := h.agrees x
      simp only [Context.stack, List.mem_reverse, List.mem_cons] at hx
      simp only [Context.leave, Context.stack, List.mem_reverse, Std.HashSet.contains_erase,
        Bool.and_eq_true, hx, Bool.not_eq_true', beq_eq_false_iff_ne]
      constructor
      · rintro ⟨hne, rfl | hmem⟩
        · exact absurd rfl hne
        · exact hmem
      · intro hmem
        exact ⟨fun heq => hid (heq ▸ hmem), .inr hmem⟩

theorem Nested.step (h : Nested index m) : Nested index (m.step index) := by
  obtain ⟨frames, ctx⟩ := m
  match frames with
  | ⟨.plain c :: rest, out⟩ :: around => exact h.stay rfl rfl
  | ⟨.found t :: rest, out⟩ :: around =>
    rw [Machine.step, onToken]
    split
    case h_1 => exact h.stay rfl rfl
    case h_2 r hr =>
      split
      case isTrue => exact h.stay rfl rfl
      case isFalse hfree =>
        obtain ⟨b, hb, hs, -⟩ := bundle_of_target? hr
        have hcurrent : Nested index ⟨⟨rest, out⟩ :: around, ctx.record r .transclude⟩ :=
          h.stay rfl rfl
        exact hcurrent.enter (hs ▸ List.mem_map_of_mem hb) (Bool.eq_false_iff.2 hfree)
  | ⟨[], done⟩ :: parent :: around => exact h.leave
  | [⟨[], out⟩] => exact h
  | [] => exact h

theorem Nested.frames_ne_nil (h : Nested index m) : m.frames ≠ [] := by
  intro hnil
  have := h.matched
  simp [hnil] at this

theorem Nested.frames_le (h : Nested index m) :
    m.frames.length ≤ (index.bundles.map (·.snippet.id)).toFinset.card + 1 := by
  have hsub : m.context.chain.toFinset ⊆ (index.bundles.map (·.snippet.id)).toFinset := by
    intro id hid
    exact List.mem_toFinset.2 (h.known id (List.mem_toFinset.1 hid))
  have hcard := Finset.card_le_card hsub
  rw [List.toFinset_card_of_nodup h.distinct] at hcard
  rw [h.matched]
  omega

theorem eq_of_isDone (done : m.isDone = true) (hframes : m.frames ≠ []) :
    ∃ out ctx, m = ⟨[⟨[], out⟩], ctx⟩ := by
  obtain ⟨frames, ctx⟩ := m
  match frames with
  | [⟨[], out⟩] => exact ⟨out, ctx, rfl⟩
  | [] => exact absurd rfl hframes
  | ⟨.plain _ :: _, _⟩ :: _ | ⟨.found _ :: _, _⟩ :: _ | ⟨[], _⟩ :: _ :: _ => cases done

end Machine

/-- **Expansion returns, and its depth is bounded.** Started with nothing being expanded, a run
ends in the frame of the text itself, whose text `expand` returns; and every run from there, ended
or not, has a frame open, and at most one more than there are ids among the bundles. -/
theorem expand_returns_within_ids (index : Index) (text : String) :
    (∃ opened out ctx,
      Machine.Runs index (.start text .empty) opened ⟨[⟨[], out⟩], ctx⟩ ∧
        expand index text .empty = (out, ctx)) ∧
    (∀ opened m, Machine.Runs index (.start text .empty) opened m →
      m.frames ≠ [] ∧
        m.frames.length ≤ (index.bundles.map (·.snippet.id)).toFinset.card + 1) := by
  have hruns : ∀ opened m, Machine.Runs index (.start text .empty) opened m →
      Machine.Nested index m := by
    intro opened m hrun
    exact hrun.keeps (fun _ _ h => h.step) (Machine.nested_start index text)
  refine ⟨?_, fun opened m hrun => ⟨(hruns _ _ hrun).frames_ne_nil, (hruns _ _ hrun).frames_le⟩⟩
  obtain ⟨opened, hrun, done⟩ := Machine.exists_runs_done index (.start text .empty)
  obtain ⟨out, ctx, hend⟩ := Machine.eq_of_isDone done (hruns _ _ hrun).frames_ne_nil
  refine ⟨opened, out, ctx, hend ▸ hrun, ?_⟩
  rw [expand, hend]
  rfl

end DocCompiler.Transclusion
