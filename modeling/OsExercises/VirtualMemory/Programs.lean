import OsExercises.VirtualMemory.Translation
import OsExercises.Library.Views

/-!
# Programs over the physical memory

The functions of `VirtualMemory.cpp` are built from calls of the physical memory. What holds of every
such program follows from that alone: it does not read the calls made before, and it adds only calls
that are allowed where it makes them.
-/

namespace OsExercises.VirtualMemory

variable {c : MemoryConstants} {allowed : PmCall → Prop} {α β : Type}

/-- Programs whose calls of the physical memory are allowed. -/
inductive Built (allowed : PmCall → Prop) : {α : Type} → Vm α → Prop where
  | pure {α : Type} (value : α) : Built allowed (Pure.pure value : Vm α)
  | call {α : Type} {call : PmCall} (hcall : allowed call) (assertion : Memory → Bool)
      (effect : Memory → α × Memory) : Built allowed (pmCall call assertion effect)
  | bind {α β : Type} {program : Vm α} {next : α → Vm β} :
      Built allowed program → (∀ value, Built allowed (next value)) →
      Built allowed (program >>= next)

namespace Built

theorem ite {p : Prop} [Decidable p] {program program' : Vm α} (h : Built allowed program)
    (h' : Built allowed program') : Built allowed (if p then program else program') := by
  split
  · exact h
  · exact h'

theorem foldlM {body : α → β → Vm α} (hbody : ∀ acc item, Built allowed (body acc item))
    (items : List β) : ∀ acc, Built allowed (items.foldlM body acc) := by
  induction items with
  | nil => exact fun acc => pure acc
  | cons item items ih =>
      intro acc
      rw [List.foldlM_cons]
      exact (hbody acc item).bind ih

/-- The calls made so far are not read. -/
theorem readsThrough {program : Vm α} (h : Built allowed program) :
    ReadsThrough Machine.memory program := by
  induction h with
  | pure value => exact ReadsThrough.pure value
  | call _ assertion effect =>
      intro s s' hview
      unfold pmCall viewed
      rw [hview]
      split <;> rfl
  | bind _ _ ih ih' => exact ih.bind ih'

/-- The calls that a program adds to those made before. -/
theorem exists_made {program : Vm α} (h : Built allowed program) :
    ∀ s value s', program s = some (value, s') →
      ∃ made, s'.calls = made ++ s.calls ∧ ∀ call ∈ made, allowed call.1 := by
  induction h with
  | pure value =>
      intro s value' s' hrun
      cases hrun
      exact ⟨[], rfl, fun _ hcall => by cases hcall⟩
  | @call _ call hcall assertion effect =>
      intro s value s' hrun
      unfold pmCall at hrun
      split at hrun
      · cases hrun
        refine ⟨[(call, s.memory)], rfl, fun made hmade => ?_⟩
        rw [List.mem_singleton.mp hmade]
        exact hcall
      · cases hrun
  | bind _ _ ih ih' =>
      intro s result s' hrun
      obtain ⟨value, middle, hfirst, hsecond⟩ := exists_of_run_bind hrun
      obtain ⟨made, hmade, hallowed⟩ := ih s value middle hfirst
      obtain ⟨made', hmade', hallowed'⟩ := ih' value middle result s' hsecond
      refine ⟨made' ++ made, ?_, ?_⟩
      · rw [hmade', hmade, List.append_assoc]
      · intro call hcall
        rcases List.mem_append.mp hcall with hlate | hearly
        · exact hallowed' call hlate
        · exact hallowed call hearly

end Built

/-! ### The functions of the source -/

/-- A page is restored under one number only. -/
def RestoresOnly (page : Nat) : PmCall → Prop
  | .restore _ restoredPageIndex => restoredPageIndex = page
  | _ => True

section Functions

variable {page : Nat}

theorem built_searchFrame {illegal pageIn : Nat} (levels : Nat) :
    ∀ (frame prevAdd currPath : Nat) (st : SearchState), Built (RestoresOnly page)
      (searchFrame c illegal pageIn levels frame prevAdd currPath st) := by
  induction levels with
  | zero =>
      intro frame prevAdd currPath st
      rw [searchFrame.eq_def]
      split
      · exact Built.pure _
      · exact Built.pure _
  | succ levels ih =>
      intro frame prevAdd currPath st
      rw [searchFrame.eq_def]
      split
      · exact Built.pure _
      · refine Built.bind (Built.foldlM ?_ _ _) ?_
        · rintro ⟨isEmpty, st⟩ i
          refine (Built.call trivial _ _).bind fun rowVal => ?_
          apply Built.ite
          · exact (ih _ _ _ _).bind fun st => Built.pure _
          · exact Built.pure _
        · rintro ⟨isEmpty, st⟩
          exact Built.ite (Built.pure _) (Built.pure _)

theorem built_findFrame (illegal : Nat) (pageIn : Word) :
    Built (RestoresOnly page) (findFrame c illegal pageIn) := by
  refine (built_searchFrame _ _ _ _ _).bind fun st => ?_
  apply Built.ite
  · exact (Built.call trivial _ _).bind fun _ => Built.pure _
  apply Built.ite
  · exact Built.pure _
  · refine (Built.call trivial _ _).bind fun _ => ?_
    exact (Built.call trivial _ _).bind fun _ => Built.pure _

theorem built_translateLevel (virtualAddress : Nat) (pageIn lastFrame : Word) (level : Nat) :
    Built (RestoresOnly (asUInt64 pageIn))
      (translateLevel c virtualAddress pageIn lastFrame level) := by
  refine (Built.call trivial _ _).bind fun currFrame => ?_
  apply Built.ite
  · refine (built_findFrame _ _).bind fun found => ?_
    have hrestore : RestoresOnly (asUInt64 pageIn)
        (.restore (asUInt64 (asInt found)) (asUInt64 pageIn)) := rfl
    apply Built.ite
    · refine (Built.foldlM (fun _ _ => Built.call trivial _ _) _ _).bind fun _ => ?_
      exact (Built.call trivial _ _).bind fun _ => Built.pure _
    · refine (Built.call hrestore _ _).bind fun _ => ?_
      exact (Built.call trivial _ _).bind fun _ => Built.pure _
  · exact Built.pure _

/-- A translation restores its page under the number that went through `word_t pageIn`. -/
theorem built_translateAddress (virtualAddress : Nat) :
    Built (RestoresOnly (asUInt64 (asInt (virtualAddress >>> c.offsetWidth))))
      (translateAddress c virtualAddress) := by
  refine Built.bind (Built.foldlM ?_ _ _) fun _ => Built.pure _
  exact fun lastFrame level => built_translateLevel virtualAddress _ lastFrame level

end Functions

end OsExercises.VirtualMemory
