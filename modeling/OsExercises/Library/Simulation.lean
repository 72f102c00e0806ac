import OsExercises.Library.Ensures

/-!
# Simulation of programs that can fail

A program with named faults follows a program without them, its model: where the model goes through
so does the program, with related values and states, and where the model fails the program fails with
a fault that is allowed. So a program that follows a model has no other faults.
-/

namespace OsExercises

variable {σ τ ε α β γ δ : Type} {allowed : ε → Prop}

theorem run_bind_ok {program : StateT σ (Except ε) α} {next : α → StateT σ (Except ε) γ} {s s' : σ}
    {value : α} (hrun : program s = .ok (value, s')) : (program >>= next) s = next value s' := by
  change (program s).bind (fun p => next p.1 p.2) = _
  rw [hrun]
  rfl

theorem run_bind_error {program : StateT σ (Except ε) α} {next : α → StateT σ (Except ε) γ} {s : σ}
    {fault : ε} (hrun : program s = .error fault) : (program >>= next) s = .error fault := by
  change (program s).bind (fun p => next p.1 p.2) = _
  rw [hrun]
  rfl

theorem run_bind_none {program : StateT σ Option α} {next : α → StateT σ Option β} {s : σ}
    (hrun : program s = none) : (program >>= next) s = none := by
  change (program s).bind (fun p => next p.1 p.2) = _
  rw [hrun]
  rfl

/-- The run of `program` from `s` follows the run of `model` from `t`. -/
def Simulates (allowed : ε → Prop) (program : StateT σ (Except ε) α) (s : σ)
    (model : StateT τ Option β) (t : τ) (post : α → σ → β → τ → Prop) : Prop :=
  match model t with
  | some (image, t') => ∃ value s', program s = .ok (value, s') ∧ post value s' image t'
  | none => ∃ fault, program s = .error fault ∧ allowed fault

variable {program : StateT σ (Except ε) α} {model : StateT τ Option β} {s s' : σ} {t t' : τ}

theorem simulates_of_ok {value : α} {image : β} {post : α → σ → β → τ → Prop}
    (hprogram : program s = .ok (value, s')) (hmodel : model t = some (image, t'))
    (hpost : post value s' image t') : Simulates allowed program s model t post := by
  rw [Simulates, hmodel]
  exact ⟨value, s', hprogram, hpost⟩

theorem simulates_of_error {fault : ε} {post : α → σ → β → τ → Prop}
    (hprogram : program s = .error fault) (hmodel : model t = none) (hallowed : allowed fault) :
    Simulates allowed program s model t post := by
  rw [Simulates, hmodel]
  exact ⟨fault, hprogram, hallowed⟩

theorem simulates_pure {value : α} {image : β} {post : α → σ → β → τ → Prop}
    (hpost : post value s image t) :
    Simulates allowed (pure value) s (pure image : StateT τ Option β) t post :=
  simulates_of_ok rfl rfl hpost

namespace Simulates

variable {mid : α → σ → β → τ → Prop}

theorem run_ok {image : β} (h : Simulates allowed program s model t mid)
    (hmodel : model t = some (image, t')) :
    ∃ value s', program s = .ok (value, s') ∧ mid value s' image t' := by
  rw [Simulates, hmodel] at h
  exact h

/-- What a program that follows a model cannot run into. -/
theorem ne_error (h : Simulates allowed program s model t mid) {fault : ε} (hfault : ¬ allowed fault) :
    program s ≠ .error fault := by
  intro herror
  unfold Simulates at h
  split at h
  · obtain ⟨value, s', hrun, -⟩ := h
    rw [hrun] at herror
    cases herror
  · obtain ⟨fault', hrun, hallowed⟩ := h
    rw [hrun] at herror
    cases herror
    exact hfault hallowed

theorem mono {post : α → σ → β → τ → Prop} (h : Simulates allowed program s model t mid)
    (himp : ∀ value s' image t', mid value s' image t' → post value s' image t') :
    Simulates allowed program s model t post := by
  cases hmodel : model t with
  | some result =>
      obtain ⟨value, s', hrun, hmid⟩ := h.run_ok hmodel
      exact simulates_of_ok hrun hmodel (himp _ _ _ _ hmid)
  | none =>
      rw [Simulates, hmodel] at h
      obtain ⟨fault, hrun, hallowed⟩ := h
      exact simulates_of_error hrun hmodel hallowed

theorem bind {next : α → StateT σ (Except ε) γ} {next' : β → StateT τ Option δ}
    {post : γ → σ → δ → τ → Prop} (h : Simulates allowed program s model t mid)
    (hnext : ∀ value s' image t', mid value s' image t' →
      Simulates allowed (next value) s' (next' image) t' post) :
    Simulates allowed (program >>= next) s (model >>= next') t post := by
  cases hmodel : model t with
  | some result =>
      obtain ⟨value, s', hrun, hmid⟩ := h.run_ok hmodel
      have hrest := hnext value s' result.1 result.2 hmid
      rw [Simulates, run_bind hmodel, run_bind_ok hrun]
      exact hrest
  | none =>
      rw [Simulates, hmodel] at h
      obtain ⟨fault, hrun, hallowed⟩ := h
      exact simulates_of_error (run_bind_error hrun) (run_bind_none hmodel) hallowed

/-- A step that only the program makes. -/
theorem left {next : α → StateT σ (Except ε) γ} {value : α} {post : γ → σ → β → τ → Prop}
    (hrun : program s = .ok (value, s')) (hnext : Simulates allowed (next value) s' model t post) :
    Simulates allowed (program >>= next) s model t post := by
  rw [Simulates, run_bind_ok hrun]
  exact hnext

/-- A step that only the model makes. -/
theorem right {first : StateT τ Option δ} {next : δ → StateT τ Option β} {image : δ}
    {post : α → σ → β → τ → Prop} (hrun : first t = some (image, t'))
    (hnext : Simulates allowed program s (next image) t' post) :
    Simulates allowed program s (first >>= next) t post := by
  rw [Simulates, run_bind hrun]
  exact hnext

end Simulates

end OsExercises
