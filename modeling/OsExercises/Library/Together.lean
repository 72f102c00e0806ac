import OsExercises.Library.Ensures

/-!
# Two runs

`Together` says of two programs that can fail that neither of them does and how they end, one beside
the other. What each of them ends with by itself is put together by `Ensures.together`; from there
the rules go through the two programs side by side.
-/

namespace OsExercises

variable {σ α β γ δ : Type} {inv : σ → Prop}

/-- The runs of `program` from `s` and of `program'` from `s'` end without failing, keep `inv`, and
end as `post` says. -/
def Together (inv : σ → Prop) (program : StateT σ Option α) (program' : StateT σ Option β)
    (s s' : σ) (post : α → σ → β → σ → Prop) : Prop :=
  inv s → inv s' → ∃ value t value' t', program s = some (value, t) ∧
    program' s' = some (value', t') ∧ inv t ∧ inv t' ∧ post value t value' t'

variable {program : StateT σ Option α} {program' : StateT σ Option β} {s s' : σ}

theorem together_pure {value : α} {value' : β} {post : α → σ → β → σ → Prop}
    (hpost : post value s value' s') : Together inv (pure value) (pure value') s s' post :=
  fun hinv hinv' => ⟨value, s, value', s', rfl, rfl, hinv, hinv', hpost⟩

theorem Ensures.together {post : α → σ → Prop} {post' : β → σ → Prop}
    (h : Ensures inv program s post) (h' : Ensures inv program' s' post') :
    Together inv program program' s s' fun value t value' t' => post value t ∧ post' value' t' := by
  intro hinv hinv'
  obtain ⟨value, t, hrun, ht, hpost⟩ := h hinv
  obtain ⟨value', t', hrun', ht', hpost'⟩ := h' hinv'
  exact ⟨value, t, value', t', hrun, hrun', ht, ht', hpost, hpost'⟩

namespace Together

variable {mid : α → σ → β → σ → Prop}

theorem mono {post : α → σ → β → σ → Prop} (h : Together inv program program' s s' mid)
    (himp : ∀ value t value' t', mid value t value' t' → post value t value' t') :
    Together inv program program' s s' post := by
  intro hinv hinv'
  obtain ⟨value, t, value', t', hrun, hrun', ht, ht', hmid⟩ := h hinv hinv'
  exact ⟨value, t, value', t', hrun, hrun', ht, ht', himp _ _ _ _ hmid⟩

theorem bind {next : α → StateT σ Option γ} {next' : β → StateT σ Option δ}
    {post : γ → σ → δ → σ → Prop} (h : Together inv program program' s s' mid)
    (hnext : ∀ value t value' t', mid value t value' t' →
      Together inv (next value) (next' value') t t' post) :
    Together inv (program >>= next) (program' >>= next') s s' post := by
  intro hinv hinv'
  obtain ⟨value, t, value', t', hrun, hrun', ht, ht', hmid⟩ := h hinv hinv'
  rw [run_bind hrun, run_bind hrun']
  exact hnext value t value' t' hmid ht ht'

end Together

/-- Two loops with the same number of rounds. -/
theorem together_foldlM_range {body : α → Nat → StateT σ Option α}
    {body' : β → Nat → StateT σ Option β} (rounds : Nat → α → σ → β → σ → Prop) {n : Nat}
    {acc : α} {acc' : β}
    (hbody : ∀ i < n, ∀ acc s acc' s', rounds i acc s acc' s' →
      Together inv (body acc i) (body' acc' i) s s' (rounds (i + 1)))
    (hstart : rounds 0 acc s acc' s') :
    Together inv ((List.range n).foldlM body acc) ((List.range n).foldlM body' acc') s s'
      (rounds n) := by
  induction n with
  | zero => exact together_pure hstart
  | succ n ih =>
      rw [List.range_succ, List.foldlM_append, List.foldlM_append]
      refine (ih fun i hi => hbody i (Nat.lt_succ_of_lt hi)).bind fun acc t acc' t' hrounds => ?_
      rw [List.foldlM_cons, List.foldlM_cons]
      exact (hbody n (Nat.lt_succ_self n) _ _ _ _ hrounds).bind fun _ _ _ _ => together_pure

end OsExercises
