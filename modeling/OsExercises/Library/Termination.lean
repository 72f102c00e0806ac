import OsExercises.Library.Runs

/-!
# Runs that come to an end

A measure that every step raises bounds the length of the runs when it is bounded itself. When besides
a state that is not final can always go on, every run can be carried on to a final state.
-/

namespace OsExercises.Run

variable {σ ε : Type} {step : σ → ε → σ → Prop} {start s : σ} {events : List ε}

/-- Every step raises the measure by one at least. -/
theorem length_add_le (inv : σ → Prop) {measure : σ → Nat} (hstart : inv start)
    (hstep : ∀ s event s', inv s → step s event s' → inv s')
    (hraise : ∀ s event s', inv s → step s event s' → measure s < measure s')
    (hrun : Run step start events s) : events.length + measure start ≤ measure s := by
  induction hrun with
  | start => exact Nat.le_of_eq (Nat.zero_add _)
  | @next events s s' event hbefore hlast ih =>
      have hlt := hraise s event s' (hbefore.invariant hstart hstep) hlast
      calc (events ++ [event]).length + measure start
        _ = events.length + measure start + 1 := by
            rw [List.length_append]
            exact Nat.add_right_comm _ _ _
        _ ≤ measure s + 1 := Nat.add_le_add_right ih 1
        _ ≤ measure s' := hlt

/-- A run that can go on wherever it is not at its end gets there. -/
theorem exists_final {final : σ → Prop} {bound : Nat}
    (hbound : ∀ events s, Run step start events s → events.length ≤ bound)
    (hnext : ∀ events s, Run step start events s → final s ∨ ∃ event s', step s event s')
    (hrun : Run step start events s) : ∃ rest s', Run step s rest s' ∧ final s' := by
  induction hleft : bound - events.length using Nat.strongRecOn generalizing events s with
  | _ left ih =>
      rcases hnext events s hrun with hfinal | ⟨event, s', hlast⟩
      · exact ⟨[], s, .start, hfinal⟩
      · have hrun' := hrun.next hlast
        have hlength := hbound _ _ hrun'
        rw [List.length_append, List.length_singleton] at hlength
        have hless : bound - (events ++ [event]).length < left := by
          rw [List.length_append, List.length_singleton]
          omega
        obtain ⟨rest, last, hrest, hfinal⟩ := ih _ hless hrun' rfl
        exact ⟨event :: rest, last, (Run.start.next hlast).append hrest, hfinal⟩

end OsExercises.Run
