import Mathlib.Data.List.Basic

/-!
# Total correctness of programs that can fail

A program over states `σ` is a `StateT σ Option`, where `none` is a failed assertion. `Ensures`
says that a run from `s` does not fail and where it ends; an invariant of the states is threaded
through every rule, so that a specification only says what changes. The loops are folds over
`List.range`, and their rules take an invariant indexed by the number of rounds made.
-/

namespace OsExercises

variable {σ α β : Type} {inv : σ → Prop}

/-- The run of `program` from `s` ends without failing, keeps `inv`, and ends as `post` says. -/
def Ensures (inv : σ → Prop) (program : StateT σ Option α) (s : σ) (post : α → σ → Prop) : Prop :=
  inv s → ∃ value s', program s = some (value, s') ∧ inv s' ∧ post value s'

theorem ensures_pure {value : α} {s : σ} {post : α → σ → Prop} (hpost : post value s) :
    Ensures inv (pure value) s post :=
  fun hinv => ⟨value, s, rfl, hinv, hpost⟩

theorem Ensures.mono {program : StateT σ Option α} {s : σ} {post post' : α → σ → Prop}
    (hprogram : Ensures inv program s post) (himp : ∀ value s', post value s' → post' value s') :
    Ensures inv program s post' := by
  intro hinv
  obtain ⟨value, s', hrun, hinv', hpost⟩ := hprogram hinv
  exact ⟨value, s', hrun, hinv', himp value s' hpost⟩

theorem Ensures.bind {program : StateT σ Option α} {next : α → StateT σ Option β} {s : σ}
    {mid : α → σ → Prop} {post : β → σ → Prop} (hprogram : Ensures inv program s mid)
    (hnext : ∀ value s', mid value s' → Ensures inv (next value) s' post) :
    Ensures inv (program >>= next) s post := by
  intro hinv
  obtain ⟨value, s', hrun, hinv', hmid⟩ := hprogram hinv
  obtain ⟨result, s'', hrun', hinv'', hpost⟩ := hnext value s' hmid hinv'
  refine ⟨result, s'', ?_, hinv'', hpost⟩
  change (program s).bind (fun p => next p.1 p.2) = _
  rw [hrun]
  exact hrun'

/-- Two things that hold of one run. -/
theorem Ensures.and {program : StateT σ Option α} {s : σ} {post post' : α → σ → Prop}
    (h : Ensures inv program s post) (h' : Ensures inv program s post') :
    Ensures inv program s fun value s' => post value s' ∧ post' value s' := by
  intro hinv
  obtain ⟨value, s', hrun, hinv', hpost⟩ := h hinv
  obtain ⟨value', s'', hrun', -, hpost'⟩ := h' hinv
  rw [hrun] at hrun'
  obtain ⟨rfl, rfl⟩ := Prod.mk.inj (Option.some.inj hrun')
  exact ⟨value, s', hrun, hinv', hpost, hpost'⟩

/-! ### Runs step by step -/

theorem run_bind {program : StateT σ Option α} {next : α → StateT σ Option β} {s s' : σ} {value : α}
    (hrun : program s = some (value, s')) : (program >>= next) s = next value s' := by
  change (program s).bind (fun p => next p.1 p.2) = _
  rw [hrun]
  rfl

theorem run_bind_eq {program : StateT σ Option α} {next : α → StateT σ Option β} {s s' : σ}
    {value : α} {result : Option (β × σ)} (hrun : program s = some (value, s'))
    (hnext : next value s' = result) : (program >>= next) s = result :=
  (run_bind hrun).trans hnext

/-- A run that ends has ended its first part. -/
theorem exists_of_run_bind {program : StateT σ Option α} {next : α → StateT σ Option β} {s s' : σ}
    {result : β} (hrun : (program >>= next) s = some (result, s')) :
    ∃ value middle, program s = some (value, middle) ∧ next value middle = some (result, s') := by
  obtain ⟨⟨value, middle⟩, hfirst, hrest⟩ := Option.bind_eq_some_iff.mp hrun
  exact ⟨value, middle, hfirst, hrest⟩

theorem run_get (s : σ) : (get : StateT σ Option σ) s = some (s, s) := rfl

theorem run_modify (change : σ → σ) (s : σ) :
    (modify change : StateT σ Option PUnit) s = some (⟨⟩, change s) := rfl

theorem run_ite {p : Prop} [Decidable p] {program program' : StateT σ Option α} {s : σ} :
    (if p then program else program') s = if p then program s else program' s := by
  split <;> rfl

/-! ### Loops -/

/-- What every round that ends keeps of the accumulator, the whole loop keeps. -/
theorem foldlM_keeps {body : α → β → StateT σ Option α} (keep : α → Prop)
    (hbody : ∀ acc item s acc' s', keep acc → body acc item s = some (acc', s') → keep acc')
    (items : List β) : ∀ {acc s acc' s'}, keep acc → items.foldlM body acc s = some (acc', s') →
      keep acc' := by
  induction items with
  | nil =>
      intro acc s acc' s' hkeep hrun
      cases hrun
      exact hkeep
  | cons item items ih =>
      intro acc s acc' s' hkeep hrun
      rw [List.foldlM_cons] at hrun
      obtain ⟨mid, s₁, hround, hrest⟩ := exists_of_run_bind hrun
      exact ih (hbody acc item s mid s₁ hkeep hround) hrest

/-- The rounds of a loop whose counter runs from `start` through `n` values. -/
theorem ensures_foldlM_range' {body : α → Nat → StateT σ Option α} (rounds : Nat → α → σ → Prop) :
    ∀ (n start : Nat) (acc : α) (s : σ),
      (∀ i, start ≤ i → i < start + n → ∀ acc s, rounds i acc s →
        Ensures inv (body acc i) s (rounds (i + 1))) →
      rounds start acc s →
      Ensures inv ((List.range' start n).foldlM body acc) s (rounds (start + n)) := by
  intro n
  induction n with
  | zero => exact fun start acc s _ hstart => ensures_pure hstart
  | succ n ih =>
      intro start acc s hbody hstart
      rw [List.range'_succ, List.foldlM_cons]
      refine (hbody start (Nat.le_refl _) (by omega) acc s hstart).bind fun acc' s' hround => ?_
      have htail := ih (start + 1) acc' s'
        (fun i hlower hupper => hbody i (by omega) (by omega)) hround
      rwa [show start + 1 + n = start + (n + 1) by omega] at htail

/-- `for (i = 0; i < n; i++)`, with an accumulator. -/
theorem ensures_foldlM_range {body : α → Nat → StateT σ Option α} (rounds : Nat → α → σ → Prop)
    {n : Nat} {acc : α} {s : σ}
    (hbody : ∀ i < n, ∀ acc s, rounds i acc s → Ensures inv (body acc i) s (rounds (i + 1)))
    (hstart : rounds 0 acc s) :
    Ensures inv ((List.range n).foldlM body acc) s (rounds n) := by
  have hfold := ensures_foldlM_range' rounds n 0 acc s
    (fun i _ hi => hbody i (by omega)) hstart
  rwa [← List.range_eq_range', Nat.zero_add] at hfold

end OsExercises
