import Mathlib.Data.List.Basic

/-!
# Runs of a step relation

A system is a relation between a state, an event and the next state. A run is the list of its events
with the state it ends in, and `Meeting` restricts a system to the steps that meet a condition, so
that `Run (Meeting step condition)` says that every step of the run met it.
-/

namespace OsExercises

variable {σ ε : Type} {step : σ → ε → σ → Prop} {start s : σ} {events : List ε}

inductive Run (step : σ → ε → σ → Prop) (start : σ) : List ε → σ → Prop where
  | start : Run step start [] start
  | next {events : List ε} {s s' : σ} {event : ε} :
      Run step start events s → step s event s' → Run step start (events ++ [event]) s'

def Meeting (step condition : σ → ε → σ → Prop) (s : σ) (event : ε) (s' : σ) : Prop :=
  step s event s' ∧ condition s event s'

namespace Run

theorem mono {step' : σ → ε → σ → Prop} (himp : ∀ s event s', step s event s' → step' s event s')
    (hrun : Run step start events s) : Run step' start events s := by
  induction hrun with
  | start => exact .start
  | next _ hstep ih => exact .next ih (himp _ _ _ hstep)

/-- A new run from where one has ended. -/
theorem here (_ : Run step start events s) : Run step s [] s := .start

theorem append {events' : List ε} {s' : σ} (hrun : Run step start events s)
    (hrun' : Run step s events' s') : Run step start (events ++ events') s' := by
  induction hrun' with
  | start => rwa [List.append_nil]
  | next _ hlast ih =>
      rw [← List.append_assoc]
      exact .next ih hlast

theorem eq_of_nil (hrun : Run step start [] s) : s = start := by
  generalize hnil : ([] : List ε) = all at hrun
  cases hrun with
  | start => rfl
  | next _ _ => simp at hnil

/-- The last step of a run. -/
theorem last_step {event : ε} {s' : σ} (hrun : Run step start (events ++ [event]) s') :
    ∃ s, Run step start events s ∧ step s event s' := by
  generalize hevents : events ++ [event] = all at hrun
  cases hrun with
  | start => simp at hevents
  | @next before s s' last hbefore hlast =>
      obtain ⟨rfl, heq⟩ := List.append_inj' hevents rfl
      obtain rfl := List.singleton_inj.mp heq
      exact ⟨s, hbefore, hlast⟩

/-- What holds at the start and is kept by every step holds at the end. -/
theorem invariant {inv : σ → Prop} (hstart : inv start)
    (hstep : ∀ s event s', inv s → step s event s' → inv s') (hrun : Run step start events s) :
    inv s := by
  induction hrun with
  | start => exact hstart
  | next _ hlast ih => exact hstep _ _ _ ih hlast

/-- A condition on the events alone. -/
theorem meeting_of_forall {condition : σ → ε → σ → Prop} (hrun : Run step start events s)
    (hall : ∀ event ∈ events, ∀ s s', condition s event s') :
    Run (Meeting step condition) start events s := by
  induction hrun with
  | start => exact .start
  | next _ hlast ih =>
      have hbefore := ih fun event hevent => hall event (List.mem_append_left _ hevent)
      exact hbefore.next ⟨hlast, hall _ (List.mem_append_right _ List.mem_cons_self) _ _⟩

/-- Two conditions that agree on the steps from states with an invariant agree on runs. The invariant
need only be kept by the steps that meet them. -/
theorem meeting_iff (inv : σ → Prop) {condition condition' : σ → ε → σ → Prop} (hstart : inv start)
    (hiff : ∀ s event s', inv s → step s event s' →
      (condition s event s' ↔ condition' s event s'))
    (hinv : ∀ s event s', inv s → step s event s' → condition s event s' → inv s') :
    Run (Meeting step condition) start events s ↔ Run (Meeting step condition') start events s := by
  constructor
  · intro hrun
    suffices hboth : Run (Meeting step condition') start events s ∧ inv s from hboth.1
    induction hrun with
    | start => exact ⟨.start, hstart⟩
    | next _ hlast ih =>
        have hcondition := (hiff _ _ _ ih.2 hlast.1).mp hlast.2
        exact ⟨.next ih.1 ⟨hlast.1, hcondition⟩, hinv _ _ _ ih.2 hlast.1 hlast.2⟩
  · intro hrun
    suffices hboth : Run (Meeting step condition) start events s ∧ inv s from hboth.1
    induction hrun with
    | start => exact ⟨.start, hstart⟩
    | next _ hlast ih =>
        have hcondition := (hiff _ _ _ ih.2 hlast.1).mpr hlast.2
        exact ⟨.next ih.1 ⟨hlast.1, hcondition⟩, hinv _ _ _ ih.2 hlast.1 hcondition⟩

/-- A run is determined by its events when a step is. -/
theorem deterministic (hdet : ∀ s event s₁ s₂, step s event s₁ → step s event s₂ → s₁ = s₂)
    {s₁ s₂ : σ} (hrun₁ : Run step start events s₁) (hrun₂ : Run step start events s₂) :
    s₁ = s₂ := by
  induction hrun₁ generalizing s₂ with
  | start => exact hrun₂.eq_of_nil.symm
  | next _ hlast ih =>
      obtain ⟨s, hbefore, hlast₂⟩ := hrun₂.last_step
      obtain rfl := ih hbefore
      exact hdet _ _ _ _ hlast hlast₂

theorem meeting_next_iff (hdet : ∀ s event s₁ s₂, step s event s₁ → step s event s₂ → s₁ = s₂)
    {condition : σ → ε → σ → Prop} {s' : σ} {event : ε} (hrun : Run step start events s)
    (hstep : step s event s') :
    Run (Meeting step condition) start (events ++ [event]) s' ↔
      Run (Meeting step condition) start events s ∧ condition s event s' := by
  constructor
  · intro hmeeting
    obtain ⟨middle, hbefore, hlast⟩ := hmeeting.last_step
    obtain rfl := deterministic hdet hrun (hbefore.mono fun _ _ _ h => h.1)
    exact ⟨hbefore, hlast.2⟩
  · rintro ⟨hbefore, hcondition⟩
    exact .next hbefore ⟨hstep, hcondition⟩

/-! ### Programs without a choice -/

/-- A run from its first step. -/
theorem first_step (hrun : Run step start events s) :
    (events = [] ∧ s = start) ∨ ∃ event rest middle, events = event :: rest ∧
      step start event middle ∧ Run step middle rest s := by
  induction hrun with
  | start => exact Or.inl ⟨rfl, rfl⟩
  | @next before s s' last _ hlast ih =>
      right
      rcases ih with ⟨rfl, rfl⟩ | ⟨event, rest, middle, rfl, hfirst, hrest⟩
      · exact ⟨last, [], s', rfl, hlast, .start⟩
      · exact ⟨event, rest ++ [last], middle, rfl, hfirst, hrest.next hlast⟩

section

variable (hdet : ∀ s event₁ s₁ event₂ s₂, step s event₁ s₁ → step s event₂ s₂ →
  event₁ = event₂ ∧ s₁ = s₂)
include hdet

/-- Of two runs one goes on from the other. -/
theorem comparable {events₁ events₂ : List ε} {s₁ s₂ : σ} (hrun₁ : Run step start events₁ s₁)
    (hrun₂ : Run step start events₂ s₂) :
    (∃ rest, Run step s₁ rest s₂ ∧ events₂ = events₁ ++ rest) ∨
    (∃ rest, Run step s₂ rest s₁ ∧ events₁ = events₂ ++ rest) := by
  induction hrun₂ with
  | start => exact Or.inr ⟨events₁, hrun₁, rfl⟩
  | @next before s s' event _ hlast ih =>
      rcases ih with ⟨rest, hrest, rfl⟩ | ⟨rest, hrest, rfl⟩
      · exact Or.inl ⟨rest ++ [event], hrest.next hlast, List.append_assoc _ _ _⟩
      · rcases hrest.first_step with ⟨rfl, rfl⟩ | ⟨event', rest', middle, rfl, hfirst, hrest'⟩
        · exact Or.inl ⟨[event], Run.start.next hlast, by rw [List.append_nil]⟩
        · obtain ⟨rfl, rfl⟩ := hdet _ _ _ _ _ hfirst hlast
          exact Or.inr ⟨rest', hrest', by simp⟩

/-- Every run is the beginning of the one that comes to an end. -/
theorem prefix_of_terminal {events₁ events₂ : List ε} {s₁ s₂ : σ}
    (hterminal : ∀ event s', ¬ step s₂ event s') (hrun₁ : Run step start events₁ s₁)
    (hrun₂ : Run step start events₂ s₂) :
    ∃ rest, Run step s₁ rest s₂ ∧ events₂ = events₁ ++ rest := by
  rcases comparable hdet hrun₁ hrun₂ with hbefore | ⟨rest, hrest, rfl⟩
  · exact hbefore
  · rcases hrest.first_step with ⟨rfl, rfl⟩ | ⟨event, rest', middle, -, hfirst, -⟩
    · exact ⟨[], .start, by rw [List.append_nil, List.append_nil]⟩
    · exact absurd hfirst (hterminal event middle)

end

end Run

end OsExercises
