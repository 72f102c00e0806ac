import OsExercises.Uthreads.Scheduling

/-!
# One field of every thread

What an operation does to a field that only the start of a quantum can change, such as the id or the
quantum counter: an operation without a switch leaves it alone, and a switch changes it in the thread
that runs next.
-/

namespace OsExercises.Uthreads

open Function (update)
open ThreadLibrary

/-- The field of an object, if there is one. -/
def ThreadLibrary.field {α : Type} (f : Thread → α) (lib : ThreadLibrary) (p : Address) : Option α :=
  (lib.threads p).map f

/-- Only `increace_quantum_counter` changes the field. -/
structure Steady {α : Type} (f : Thread → α) (g : α → α) : Prop where
  setState : ∀ state t, f (Thread.setState state t) = f t
  saveEnv : ∀ env t, f (Thread.saveEnv env t) = f t
  countdown : ∀ t, f (Thread.countdown t) = f t
  fallAsleep : ∀ numQuantums t, f (Thread.fallAsleep numQuantums t) = f t
  increace : ∀ t, f (Thread.increaceQuantumCounter t) = g (f t)

theorem steady_id : Steady Thread.id id where
  setState _ _ := rfl
  saveEnv _ _ := rfl
  countdown := Core.countdown_id
  fallAsleep _ _ := rfl
  increace _ := rfl

theorem steady_quantumCounter : Steady Thread.quantumCounter (· + 1) where
  setState _ _ := rfl
  saveEnv _ _ := rfl
  countdown t := by
    unfold Thread.countdown
    split
    · split <;> rfl
    · rfl
  fallAsleep _ _ := rfl
  increace _ := rfl

/-! ### The field after a change -/

section Changes

variable {α : Type} {f : Thread → α} {g : α → α} {lib lib' : ThreadLibrary} {op : Op}
  {outcome : Outcome}

theorem field_modifyThread (lib : ThreadLibrary) (p : Address) {change : Thread → Thread}
    (hchange : ∀ t, f (change t) = f t) : (lib.modifyThread p change).field f = lib.field f := by
  funext q
  rw [field, field, modifyThread_threads]
  by_cases heq : q = p
  · rw [if_pos heq, heq, Option.map_map]
    exact congrArg (fun f => (lib.threads p).map f) (funext hchange)
  · rw [if_neg heq]

theorem field_begin (hf : Steady f g) (lib : ThreadLibrary) (next : Address) :
    (lib.begin next).field f = update (lib.field f) next ((lib.field f next).map g) := by
  funext q
  rw [field, ThreadLibrary.begin, modifyThread_threads]
  by_cases heq : q = next
  · rw [if_pos heq, heq, Function.update_self, field, Option.map_map, Option.map_map]
    exact congrArg (fun f => (lib.threads next).map f) (funext hf.increace)
  · rw [if_neg heq, Function.update_of_ne heq]
    rfl

theorem field_switchTo (hf : Steady f g) (lib : ThreadLibrary) (env : Env) (next : Address) :
    (lib.switchTo env next).field f = update (lib.field f) next ((lib.field f next).map g) := by
  rw [ThreadLibrary.switchTo, field_begin hf, field_modifyThread _ _ (hf.saveEnv env),
    field_modifyThread _ _ (hf.setState .running)]

theorem field_land (f : Thread → α) (lib : ThreadLibrary) (next p : Address) :
    (lib.land next).field f p = none ∨ (lib.land next).field f p = lib.field f p := by
  rcases land_cases lib next with hland | hland
  · rw [hland]
    exact Or.inr rfl
  · rw [hland]
    change ((lib.deleteObject lib.threadToDelete).threads p).map f = none ∨
      ((lib.deleteObject lib.threadToDelete).threads p).map f = _
    rw [Core.deleteObject_threads]
    split
    · exact Or.inl rfl
    · exact Or.inr rfl

theorem field_countdown (hf : Steady f g) (lib : ThreadLibrary) (ps : List Address) :
    (lib.countdown ps).field f = lib.field f := by
  funext p
  change (if p ∈ ps then (lib.threads p).map Thread.countdown else lib.threads p).map f = _
  split
  · rw [Option.map_map]
    exact congrArg (fun f => (lib.threads p).map f) (funext hf.countdown)
  · rfl

/-! ### One step -/

/-- What an operation does to the field, and to the counters of the library. -/
inductive FieldStep (f : Thread → α) (g : α → α) (lib : ThreadLibrary) (outcome : Outcome)
    (lib' : ThreadLibrary) : Prop where
  | quiet :
      outcome.switches = false → lib'.totalQuantum = lib.totalQuantum →
      lib'.runningThread = lib.runningThread → lib'.allocated = lib.allocated →
      (∀ p, lib'.field f p = none ∨ lib'.field f p = lib.field f p) → FieldStep f g lib outcome lib'
  | spawned {id : Int32} {entryPoint : Address} :
      outcome.switches = false → lib'.totalQuantum = lib.totalQuantum →
      lib'.runningThread = lib.runningThread → lib'.allocated = lib.allocated + 1 →
      lib'.field f = update (lib.field f) (lib.allocated + 1) (some (f (.new id entryPoint))) →
      FieldStep f g lib outcome lib'
  | switched :
      outcome.switches = true → lib'.totalQuantum = lib.totalQuantum + 1 →
      lib'.allocated = lib.allocated →
      (∀ p, lib'.field f p = none ∨ lib'.field f p =
        update (lib.field f) lib'.runningThread ((lib.field f lib'.runningThread).map g) p) →
      FieldStep f g lib outcome lib'

theorem land_allocated (lib : ThreadLibrary) (next : Address) :
    (lib.land next).allocated = lib.allocated := by
  rcases land_cases lib next with hland | hland
  · rw [hland]
  · rw [hland]
    rfl

/-- A switch from a library with the same field. -/
theorem FieldStep.of_land {left : ThreadLibrary} {next : Address}
    (hrunning : left.runningThread = next) (htotal : left.totalQuantum = lib.totalQuantum + 1)
    (hallocated : left.allocated = lib.allocated)
    (hfield : left.field f = update (lib.field f) next ((lib.field f next).map g)) :
    FieldStep f g lib (left.landing next) (left.land next) := by
  apply FieldStep.switched
  · exact landing_switches left next
  · rw [land_totalQuantum, htotal]
  · rw [land_allocated, hallocated]
  · intro p
    rw [land_runningThread, hrunning, ← hfield]
    exact field_land f left next p

theorem FieldStep.of_switchTo (hf : Steady f g) {left : ThreadLibrary} (env : Env) (next : Address)
    (htotal : left.totalQuantum = lib.totalQuantum) (hallocated : left.allocated = lib.allocated)
    (hfield : left.field f = lib.field f) :
    FieldStep f g lib ((left.switchTo env next).landing next)
      ((left.switchTo env next).land next) := by
  apply FieldStep.of_land
  · rfl
  · exact congrArg (· + 1) htotal
  · exact hallocated
  · rw [field_switchTo hf, hfield]

theorem field_step (hf : Steady f g) (heffect : Effect lib op outcome lib') :
    FieldStep f g lib outcome lib' := by
  cases heffect with
  | @spawned entryPoint index _ _ _ _ =>
      refine @FieldStep.spawned _ f g lib _ _ (asInt index) entryPoint rfl rfl rfl rfl ?_
      funext p
      change (update lib.threads _ _ p).map f = _
      by_cases heq : p = lib.allocated + 1
      · rw [heq, Function.update_self, Function.update_self, Option.map_some]
      · rw [Function.update_of_ne heq, Function.update_of_ne heq]
        rfl
  | terminated _ _ _ _ _ =>
      refine .quiet rfl rfl rfl rfl fun q => ?_
      rw [field, Core.deleteObject_threads]
      split
      · exact Or.inl rfl
      · exact Or.inr rfl
  | terminatedSelf _ _ _ _ _ hlib =>
      rw [hlib]
      refine .of_land rfl rfl rfl ?_
      rw [field_begin hf, field_modifyThread _ _ (hf.setState .running)]
      rfl
  | blocked _ _ _ _ =>
      refine .quiet rfl rfl rfl rfl fun q => Or.inr ?_
      exact congrFun (field_modifyThread lib _ (hf.setState .blocked)) q
  | blockedSelf _ _ _ hlib =>
      rw [hlib]
      refine .of_switchTo hf .blockHandler _ rfl rfl ?_
      exact field_modifyThread lib lib.runningThread (hf.setState .blocked)
  | resumed _ _ =>
      refine .quiet rfl rfl rfl rfl fun q => Or.inr ?_
      exact congrFun (field_modifyThread lib _ (hf.setState .ready)) q
  | @slept _ numQuantums _ _ _ _ _ _ hlib =>
      rw [hlib]
      refine .of_switchTo hf .blockHandler _ rfl rfl ?_
      exact field_modifyThread lib lib.runningThread (hf.fallAsleep numQuantums)
  | refused _ | blockedAlready _ _ _ _ | resumedAlready _ _ | gotTid _ | gotTotalQuantums
  | gotQuantums _ =>
      exact .quiet rfl rfl rfl rfl fun _ => Or.inr rfl
  | ticked _ _ hlib =>
      rw [hlib]
      refine .of_switchTo hf .timeHandler _ rfl rfl ?_
      calc ((lib.countdown lib.allThreads).modifyThread lib.runningThread
            (Thread.setState .ready)).field f = (lib.countdown lib.allThreads).field f :=
          field_modifyThread _ _ (hf.setState .ready)
        _ = lib.field f := field_countdown hf lib lib.allThreads

end Changes

/-! ### What a step does to every object -/

section Step

variable {lib lib' : ThreadLibrary} {op : Op} {outcome : Outcome} {p : Address} {t : Thread}

theorem switches_total (heffect : Effect lib op outcome lib') :
    lib'.totalQuantum = lib.totalQuantum + (if outcome.switches then 1 else 0) := by
  cases field_step steady_id heffect with
  | quiet hswitches htotal _ _ _ => rw [hswitches, htotal]; rfl
  | spawned hswitches htotal _ _ _ => rw [hswitches, htotal]; rfl
  | switched hswitches htotal _ _ => rw [hswitches, htotal]; rfl

/-- An object that outlives an operation keeps its id. -/
theorem id_of_effect (h : Scheduled lib) (heffect : Effect lib op outcome lib')
    (ht : lib.threads p = some t) {t' : Thread} (ht' : lib'.threads p = some t') :
    t'.id = t.id := by
  have hfield : lib.field Thread.id p = some t.id := congrArg (Option.map Thread.id) ht
  have hfield' : lib'.field Thread.id p = some t'.id := congrArg (Option.map Thread.id) ht'
  have hsame : lib'.field Thread.id p = none ∨ lib'.field Thread.id p = lib.field Thread.id p := by
    cases field_step steady_id heffect with
    | quiet _ _ _ _ hkept => exact hkept p
    | spawned _ _ _ _ hnew =>
        have hne : p ≠ lib.allocated + 1 := by
          rintro rfl
          rw [h.core.allocated_fresh] at ht
          cases ht
        rw [hnew, Function.update_of_ne hne]
        exact Or.inr rfl
    | switched _ _ _ hkept =>
        rw [Option.map_id, id, Function.update_eq_self] at hkept
        exact hkept p
  rcases hsame with hnone | hsome
  · rw [hfield'] at hnone
    cases hnone
  · rw [hfield', hfield] at hsome
    exact Option.some.inj hsome

end Step

end OsExercises.Uthreads
