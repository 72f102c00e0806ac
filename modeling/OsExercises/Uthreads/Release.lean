import OsExercises.Uthreads.Scheduling

/-!
# Release of terminated threads

A thread that terminates itself cannot delete its own object: it leaves it in `thread_to_delete`, and
the next thread that comes back through a handler deletes it. A thread that runs for the first time
does not come back through a handler, so when it terminates itself the slot may still be taken, and
the object in it is lost. No other step loses an object.
-/

namespace OsExercises.Uthreads

open ThreadLibrary

variable {lib lib' : ThreadLibrary} {op : Op} {outcome : Outcome}

/-- The objects created and not deleted are the threads and the pending one. -/
def Accounted (lib : ThreadLibrary) : Prop :=
  ∀ p, lib.Alive p ↔ p ∈ lib.allThreads ∨ (lib.d = true ∧ p = lib.threadToDelete)

/-- The running thread terminates itself. -/
def TerminatesSelf (lib : ThreadLibrary) (op : Op) : Prop :=
  ∃ t, lib.Member lib.runningThread t ∧ op = .terminate t.id

/-! ### The objects after a change -/

theorem alive_modifyThread_iff (lib : ThreadLibrary) (p : Address) (change : Thread → Thread)
    (q : Address) : (lib.modifyThread p change).Alive q ↔ lib.Alive q := by
  refine ⟨?_, alive_modifyThread lib p change⟩
  rintro ⟨t, ht⟩
  rw [modifyThread_threads] at ht
  split at ht
  · rename_i heq
    obtain ⟨u, hu, -⟩ := Option.map_eq_some_iff.mp ht
    exact ⟨u, heq ▸ hu⟩
  · exact ⟨t, ht⟩

theorem alive_deleteObject_iff (lib : ThreadLibrary) (p q : Address) :
    (lib.deleteObject p).Alive q ↔ q ≠ p ∧ lib.Alive q := by
  unfold Alive
  rw [Core.deleteObject_threads]
  by_cases heq : q = p <;> simp [heq]

theorem alive_countdown_iff (lib : ThreadLibrary) (ps : List Address) (q : Address) :
    (lib.countdown ps).Alive q ↔ lib.Alive q := by
  change (∃ t, (if q ∈ ps then (lib.threads q).map Thread.countdown else lib.threads q) = some t) ↔ _
  split
  · simp [Alive, Option.map_eq_some_iff]
  · rfl

theorem alive_addThread_iff (lib : ThreadLibrary) (index : Nat) (entryPoint q : Address) :
    (lib.addThread index entryPoint).Alive q ↔ q = lib.allocated + 1 ∨ lib.Alive q := by
  by_cases heq : q = lib.allocated + 1 <;> simp [Alive, ThreadLibrary.addThread, heq]

/-- A switch from a library that has all its objects to one that still has them. -/
theorem Accounted.of_same (h : Accounted lib) (halive : ∀ p, lib'.Alive p ↔ lib.Alive p)
    (hall : lib'.allThreads = lib.allThreads) (hd : lib'.d = lib.d)
    (hdelete : lib'.threadToDelete = lib.threadToDelete) : Accounted lib' := by
  intro p
  rw [halive, h p, hall, hd, hdelete]

/-- The pending object is deleted when a thread comes back through a handler. -/
theorem Accounted.land (h : Accounted lib)
    (hout : lib.d = true → lib.threadToDelete ∉ lib.allThreads)
    (next : Address) : Accounted (lib.land next) := by
  unfold ThreadLibrary.land
  split
  · exact h
  · split
    · rename_i hd
      intro p
      change (lib.deleteObject lib.threadToDelete).Alive p ↔ p ∈ lib.allThreads ∨ (false = true ∧ _)
      rw [alive_deleteObject_iff, h p]
      constructor
      · rintro ⟨hne, hall | ⟨-, heq⟩⟩
        · exact Or.inl hall
        · exact absurd heq hne
      · rintro (hall | ⟨hfalse, -⟩)
        · exact ⟨fun heq => hout hd (heq ▸ hall), Or.inl hall⟩
        · cases hfalse
    · exact h

theorem alive_switchTo_iff (lib : ThreadLibrary) (env : Env) (next q : Address) :
    (lib.switchTo env next).Alive q ↔ lib.Alive q := by
  rw [ThreadLibrary.switchTo, ThreadLibrary.begin, alive_modifyThread_iff]
  calc ((lib.modifyThread next (Thread.setState .running)).modifyThread lib.runningThread
        (Thread.saveEnv env)).Alive q
    _ ↔ (lib.modifyThread next (Thread.setState .running)).Alive q := alive_modifyThread_iff _ _ _ q
    _ ↔ lib.Alive q := alive_modifyThread_iff lib _ _ q

/-! ### One step -/

theorem not_terminatesSelf (hop : ∀ tid, op ≠ .terminate tid) : ¬ TerminatesSelf lib op :=
  fun ⟨_, _, heq⟩ => hop _ heq

section Step

variable (h : Scheduled lib) (haccounted : Accounted lib)
include h haccounted

/-- A thread that terminates itself is pending or deleted, but it takes the place of what was pending
before. -/
theorem accounted_terminatedSelf {t : Thread} {index : Nat} {next : Address}
    (ht : lib.Member lib.runningThread t)
    (hlib : lib' = (((lib.removeThread lib.runningThread index).setPending
      lib.runningThread).modifyThread next (Thread.setState .running)).begin next) :
    Accounted (lib'.land next) ↔ lib.d = false := by
  have halive : ∀ p, lib'.Alive p ↔ lib.Alive p := by
    intro p
    rw [hlib, ThreadLibrary.begin, alive_modifyThread_iff]
    exact alive_modifyThread_iff _ next _ p
  have hall : lib'.allThreads = lib.allThreads.erase lib.runningThread := by rw [hlib]; rfl
  have hd : lib'.d = true := by rw [hlib]; rfl
  have hdelete : lib'.threadToDelete = lib.runningThread := by rw [hlib]; rfl
  cases hpending : lib.d with
  | false =>
      refine iff_of_true (Accounted.land ?_ ?_ next) rfl
      · intro p
        rw [halive, haccounted p, hpending, hall, hd, hdelete, h.core.all_nodup.mem_erase_iff]
        by_cases heq : p = lib.runningThread
        · subst heq
          simp [ht.1]
        · simp [heq]
      · rw [hall, hdelete]
        exact fun _ => h.core.all_nodup.not_mem_erase
  | true =>
      refine iff_of_false ?_ (by decide)
      obtain ⟨hout, hobject⟩ := h.core.pending hpending
      have hne : lib.threadToDelete ≠ lib.runningThread := fun heq => hout (heq ▸ ht.1)
      have hlost : lib.threadToDelete ∉ lib'.allThreads := by
        rw [hall]
        exact fun hmem => hout (List.mem_of_mem_erase hmem)
      intro hafter
      have hleft := hafter lib.threadToDelete
      rcases land_cases lib' next with hland | hland
      · rw [hland, halive, hdelete] at hleft
        rcases hleft.mp hobject with hmem | ⟨-, heq⟩
        · exact hlost hmem
        · exact hne heq
      · rw [hland] at hleft
        change (lib'.deleteObject lib'.threadToDelete).Alive _ ↔ _ ∈ lib'.allThreads ∨
          (false = true ∧ _) at hleft
        rw [alive_deleteObject_iff, halive, hdelete] at hleft
        rcases hleft.mp ⟨hne, hobject⟩ with hmem | ⟨hfalse, -⟩
        · exact hlost hmem
        · cases hfalse

theorem accounted_terminated {p : Address} {t : Thread} {index : Nat} (hp : lib.Member p t) :
    Accounted ((lib.removeThread p index).deleteObject p) := by
  intro q
  rw [alive_deleteObject_iff]
  change q ≠ p ∧ lib.Alive q ↔ q ∈ lib.allThreads.erase p ∨ (lib.d = true ∧ q = lib.threadToDelete)
  rw [haccounted q, h.core.all_nodup.mem_erase_iff, and_or_left]
  apply or_congr_right
  apply and_iff_right_of_imp
  rintro ⟨hd, rfl⟩ rfl
  exact (h.core.pending hd).1 hp.1

/-- The running thread is left, whichever way; what waits to be deleted is no thread. -/
theorem accounted_left {left : ThreadLibrary} (halive : ∀ p, left.Alive p ↔ lib.Alive p)
    (hall : left.allThreads = lib.allThreads) (hd : left.d = lib.d)
    (hdelete : left.threadToDelete = lib.threadToDelete) {env : Env} {next : Address} :
    Accounted ((left.switchTo env next).land next) := by
  have hsame : Accounted (left.switchTo env next) := by
    intro p
    rw [alive_switchTo_iff, halive, haccounted p, ← hall, ← hd, ← hdelete]
    rfl
  apply hsame.land
  intro hpending
  change left.threadToDelete ∉ left.allThreads
  rw [hdelete, hall]
  exact (h.core.pending (hd ▸ hpending)).1

/-- No operation loses an object but the termination of oneself. -/
theorem accounted_step (heffect : Effect lib op outcome lib') :
    Accounted lib' ↔ (TerminatesSelf lib op → lib.d = false) := by
  have hother : ¬ TerminatesSelf lib op → Accounted lib' →
      (Accounted lib' ↔ (TerminatesSelf lib op → lib.d = false)) :=
    fun hnot hafter => iff_of_true hafter fun hself => absurd hself hnot
  cases heffect with
  | refused hrefused =>
      apply hother _ haccounted
      rintro ⟨t, ht, rfl⟩
      cases hrefused with
      | terminate hnone => exact hnone _ _ ht rfl
  | spawned _ _ _ _ =>
      apply hother (not_terminatesSelf (by simp))
      intro p
      rw [alive_addThread_iff, haccounted p, ← or_assoc]
      apply or_congr_left
      change _ ↔ p ∈ lib.allThreads ++ [lib.allocated + 1]
      rw [List.mem_append, List.mem_singleton, or_comm]
  | terminated hp _ _ _ hne =>
      apply hother _ (accounted_terminated h haccounted hp)
      rintro ⟨u, hu, heq⟩
      exact hne (h.core.id_injective hp hu (Op.terminate.inj heq))
  | terminatedSelf ht _ _ _ _ hlib =>
      rw [accounted_terminatedSelf h haccounted ht hlib]
      have hself : TerminatesSelf lib (.terminate _) := ⟨_, ht, rfl⟩
      exact ⟨fun hd _ => hd, fun himp => himp hself⟩
  | blocked _ _ _ _ =>
      apply hother (not_terminatesSelf (by simp))
      exact haccounted.of_same (alive_modifyThread_iff lib _ _) rfl rfl rfl
  | blockedSelf _ _ _ hlib =>
      apply hother (not_terminatesSelf (by simp))
      rw [hlib]
      apply accounted_left h haccounted
      · exact alive_modifyThread_iff lib _ _
      all_goals rfl
  | resumed _ _ =>
      apply hother (not_terminatesSelf (by simp))
      exact haccounted.of_same (alive_modifyThread_iff lib _ _) rfl rfl rfl
  | slept _ _ _ hlib =>
      apply hother (not_terminatesSelf (by simp))
      rw [hlib]
      apply accounted_left h haccounted
      · exact alive_modifyThread_iff lib _ _
      all_goals rfl
  | blockedAlready _ _ _ _ | resumedAlready _ _ | gotTid _ | gotTotalQuantums | gotQuantums _ =>
      exact hother (not_terminatesSelf (by simp)) haccounted
  | ticked _ _ hlib =>
      apply hother (not_terminatesSelf (by simp))
      rw [hlib]
      apply accounted_left h haccounted
      · intro p
        calc ((lib.countdown lib.allThreads).modifyThread lib.runningThread
              (Thread.setState .ready)).Alive p
          _ ↔ (lib.countdown lib.allThreads).Alive p := alive_modifyThread_iff _ _ _ p
          _ ↔ lib.Alive p := alive_countdown_iff lib lib.allThreads p
      all_goals rfl

end Step

/-! ### Runs -/

theorem accounted_initialized : Accounted .initialized := by
  intro p
  change (∃ t, Function.update (fun _ => none) 1 (some Thread.main) p = some t) ↔
    p ∈ [1] ∨ (false = true ∧ _)
  by_cases heq : p = 1 <;> simp [heq]

/-- In a run every object is a thread or pending in every state, if and only if no thread terminates
itself while another one is pending. And no operation deletes an object twice, as every operation
goes through. -/
theorem accounted_run_iff {start : ThreadLibrary} {ops : List Op} (hinit : Initialized start)
    (hrun : Run Performs start ops lib) :
    (Run (Meeting Performs fun _ _ s' => Accounted s') start ops lib ↔
      Run (Meeting Performs fun s op _ => TerminatesSelf s op → s.d = false) start ops lib) ∧
    ∀ op : Op, op ≠ .terminate 0 → ∃ outcome lib', op.perform lib = some (outcome, lib') := by
  constructor
  · rw [initialized_iff.mp hinit]
    apply Run.meeting_iff (fun s => Scheduled s ∧ Accounted s)
    · exact ⟨scheduled_initialized, accounted_initialized⟩
    · intro s op s' h hstep
      obtain ⟨⟨outcome, heffect⟩, -⟩ := h.1.of_performs hstep
      exact accounted_step h.1 h.2 heffect
    · intro s op s' h hstep haccounted
      exact ⟨(h.1.of_performs hstep).2, haccounted⟩
  · intro op hmain
    have hreach : Reachable lib := ⟨start, ops, hinit, hrun⟩
    obtain ⟨outcome, lib', hperform, -⟩ := perform_effect hreach.scheduled hmain
    exact ⟨outcome, lib', hperform⟩

/-- Two threads that terminate themselves one after the other, each in its first quantum. -/
def lostRun : List Op := [.spawn 7, .spawn 7, .tick, .terminate 1, .terminate 2]

/-- The object of the first one is neither deleted nor a thread nor pending. -/
theorem not_accounted_lostRun : ¬ ∀ lib, Reachable lib → Accounted lib := by
  intro hall
  have hlost : (performAll lostRun .initialized).any (fun lib =>
      (lib.threads 2).isSome && !lib.allThreads.contains 2 && !lib.d) = true := by
    decide +kernel
  obtain ⟨lib, hperform, hlib⟩ := (Option.any_eq_true _ _).mp hlost
  simp only [Bool.and_eq_true, Bool.not_eq_true', List.contains_eq_mem, decide_eq_false_iff_not]
    at hlib
  obtain ⟨⟨halive, hout⟩, hd⟩ := hlib
  rcases (hall lib (reachable_performAll hperform) 2).mp (Option.isSome_iff_exists.mp halive) with
    hmem | ⟨hpending, -⟩
  · exact hout hmem
  · rw [hd] at hpending
    cases hpending

theorem accounted_lostRun_iff : ∃ lib, Run Performs .initialized lostRun lib ∧
    (Run (Meeting Performs fun _ _ s' => Accounted s') .initialized lostRun lib ↔
      Run (Meeting Performs fun s op _ => TerminatesSelf s op → s.d = false) .initialized lostRun
        lib) := by
  have hsome : (performAll lostRun .initialized).isSome = true := by decide +kernel
  obtain ⟨lib, hperform⟩ := Option.isSome_iff_exists.mp hsome
  have hinit := initialized_iff.mpr rfl
  have hrun := run_performAll .start hperform
  exact ⟨lib, hrun, (accounted_run_iff hinit hrun).1⟩

end OsExercises.Uthreads
