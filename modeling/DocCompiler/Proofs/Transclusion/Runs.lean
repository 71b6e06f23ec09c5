import DocCompiler.Transclusion.Expansion

/-! Runs of the expansion machine. A run is any number of steps, none of them past the end, with
the versions whose use it logs on its way. `Machine.run` is the one that goes to the end, so what
every step keeps holds of every machine of an expansion. -/

namespace DocCompiler.Transclusion

open Snippet (Index Resolved)

namespace Machine

/-- The version whose use the next step logs, which is the one it opens. -/
def opened? (index : Index) : Machine → Option Resolved
  | ⟨⟨.found t :: _, _⟩ :: _, ctx⟩ =>
    (t.target? index).filter fun r => !ctx.onStack.contains r.snippet.id
  | _ => none

/-- `Runs index m opened m'`: steps lead from `m` to `m'` and log the uses of `opened`, in order. -/
inductive Runs (index : Index) : Machine → List Resolved → Machine → Prop where
  | refl (m : Machine) : Runs index m [] m
  | step {m m' : Machine} {opened : List Resolved} (busy : m.isDone = false)
      (rest : Runs index (m.step index) opened m') :
      Runs index m ((m.opened? index).toList ++ opened) m'

variable {index : Index} {m m' m'' : Machine} {opened opened' : List Resolved}

theorem Runs.trans (h : Runs index m opened m') (h' : Runs index m' opened' m'') :
    Runs index m (opened ++ opened') m'' := by
  induction h with
  | refl m => exact h'
  | step busy _ ih =>
    rw [List.append_assoc]
    exact .step busy (ih h')

theorem Runs.one (busy : m.isDone = false) (hnone : m.opened? index = none)
    (h : Runs index (m.step index) opened m') : Runs index m opened m' := by
  have := Runs.step busy h
  rwa [hnone, Option.toList_none, List.nil_append] at this

/-- A run that reaches an end is the whole run. -/
theorem run_eq_of_runs (h : Runs index m opened m') (done : m'.isDone = true) :
    run index m = m' := by
  induction h with
  | refl m => rw [run, dif_pos done]
  | step busy _ ih =>
    rw [run, dif_neg (by simp [busy])]
    exact ih done

theorem Runs.keeps {p : Machine → Prop}
    (hstep : ∀ m, m.isDone = false → p m → p (m.step index)) (h : Runs index m opened m')
    (hm : p m) : p m' := by
  induction h with
  | refl m => exact hm
  | step busy _ ih => exact ih (hstep _ busy hm)

theorem exists_runs_done (index : Index) (m : Machine) :
    ∃ opened, Runs index m opened (run index m) ∧ (run index m).isDone = true := by
  induction m using run.induct index with
  | case1 m done => rw [run, dif_pos done]; exact ⟨[], .refl m, done⟩
  | case2 m busy ih =>
    rw [run, dif_neg busy]
    obtain ⟨opened, h, done⟩ := ih
    exact ⟨_, .step (Bool.eq_false_iff.2 busy) h, done⟩

end Machine
end DocCompiler.Transclusion
