import OsExercises.Library.Ensures

/-!
# Programs that see a part of the state

A program reads a state through a view if its value and the view it leaves are determined by the view
it starts from. What the view leaves out, such as a log that is only written, has no influence.
-/

namespace OsExercises

variable {σ α β ν : Type} {view : σ → ν}

/-- The value of a run and the view it leaves. -/
def viewed (view : σ → ν) (result : Option (α × σ)) : Option (α × ν) :=
  result.map fun r => (r.1, view r.2)

def ReadsThrough (view : σ → ν) (program : StateT σ Option α) : Prop :=
  ∀ s s', view s = view s' → viewed view (program s) = viewed view (program s')

namespace ReadsThrough

theorem pure (value : α) : ReadsThrough view (Pure.pure value : StateT σ Option α) := by
  intro s s' hview
  change some (value, view s) = some (value, view s')
  rw [hview]

/-- A run from a state with the same view ends with the same value and the same view. -/
theorem transfer {program : StateT σ Option α} (h : ReadsThrough view program) {s s' t : σ}
    {value : α} (hview : view s = view s') (hrun : program s = some (value, t)) :
    ∃ t', program s' = some (value, t') ∧ view t' = view t := by
  have hviewed := h s s' hview
  rw [hrun] at hviewed
  obtain ⟨⟨value', t'⟩, hrun', heq⟩ := Option.map_eq_some_iff.mp hviewed.symm
  obtain ⟨rfl, hsame⟩ := Prod.mk.inj heq
  exact ⟨t', hrun', hsame⟩

theorem bind {program : StateT σ Option α} {next : α → StateT σ Option β}
    (h : ReadsThrough view program) (hnext : ∀ value, ReadsThrough view (next value)) :
    ReadsThrough view (program >>= next) := by
  intro s s' hview
  cases hrun : program s with
  | none =>
      have hnone : program s' = none := by
        have hviewed := h s s' hview
        rw [hrun] at hviewed
        exact Option.map_eq_none_iff.mp hviewed.symm
      change viewed view ((program s).bind _) = viewed view ((program s').bind _)
      rw [hrun, hnone]
  | some result =>
      obtain ⟨t', hrun', hsame⟩ := h.transfer hview hrun
      rw [run_bind hrun, run_bind hrun']
      exact hnext result.1 result.2 t' hsame.symm

end ReadsThrough

end OsExercises
