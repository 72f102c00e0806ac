import OsExercises.Uthreads.Refinement
import OsExercises.Uthreads.Signals

/-!
# Calls and ticks

What a process with its signal mask does to the library is a run of the library, and so one of the
scheduler: the calls in the order in which they were made, and a tick for each signal that got in.
Only one signal can be pending, so one that arrives behind it is lost. The process goes on until it
ends, or until a thread is resumed that a signal has overtaken in the jump to its entry point.

The other way round every run of the scheduler is what some process does without losing a signal.
-/

namespace OsExercises.Uthreads

open ThreadLibrary

def Event.op? : Event → Option Op
  | .call op => some op
  | _ => none

/-- The main thread is terminated, or the lists are destroyed in `exit`. -/
def Event.ends (event : Event) : Bool := event = .call (.terminate 0) ∨ event = .destroy

/-- The call whose body has not begun. -/
def Point.op? : Point → Option Op
  | .calling op => some op
  | _ => none

namespace Process

/-- The signals that arrived and whose tick is still to come. -/
def due (s : Process) : Nat := (if s.point = .handling then 1 else 0) + s.pending.toNat

/-- The process has not begun to end. Its threads run with no signal pending. -/
def Running (s : Process) : Prop :=
  match s.point with
  | .user => s.masked = false ∧ s.pending = false
  | .calling op => s.masked = true ∧ op ≠ .tick ∧ op ≠ .terminate 0
  | .handling => s.masked = true
  | .entering => s.masked = false ∧ s.pending = false
  | .leaving => s.masked = true
  | .cleaned => False
  | .exiting => False
  | .ended => False
  | .lost => s.masked = true

end Process

/-- No signal arrives while another one is pending. -/
def Unmerged (s : Process) (event : Event) (_ : Process) : Prop :=
  event = .signal → s.pending = false

def calls (answers : List (Op × Outcome)) : List Op :=
  (answers.map Prod.fst).filter fun op => op ≠ .tick

def ticks (answers : List (Op × Outcome)) : Nat := (answers.map Prod.fst).count .tick

variable {s s' : Process} {event : Event} {lib : ThreadLibrary}

@[simp]
theorem calls_append (answers more : List (Op × Outcome)) :
    calls (answers ++ more) = calls answers ++ calls more := by
  rw [calls, List.map_append, List.filter_append]
  rfl

@[simp]
theorem ticks_append (answers more : List (Op × Outcome)) :
    ticks (answers ++ more) = ticks answers + ticks more := by
  rw [ticks, List.map_append, List.count_append]
  rfl

/-- A process is determined by its events. -/
theorem Process.Step.deterministic (s : Process) (event : Event) (s₁ s₂ : Process)
    (hstep₁ : Process.Step s event s₁) (hstep₂ : Process.Step s event s₂) : s₁ = s₂ := by
  cases hstep₁ <;> cases hstep₂ <;> simp_all

/-! ### One step -/

/-- The library serves `more` in a step. -/
structure Serves (s : Process) (event : Event) (more : List (Op × Outcome)) (s' : Process) :
    Prop where
  run : Run Answers s.lib more s'.lib
  calls : s.point.op?.toList ++ event.op?.toList = calls more ++ s'.point.op?.toList
  ticks : ticks more + s'.due = s.due + if event = .signal ∧ s.pending = false then 1 else 0

section Unblock

variable {point : Point} (hpoint : point = .user ∨ point = .entering)
include hpoint

theorem running_unblock (s : Process) : (s.unblock point).Running := by
  unfold Process.unblock
  cases hpending : s.pending with
  | true => exact rfl
  | false => rcases hpoint with rfl | rfl <;> exact ⟨rfl, rfl⟩

/-- The mask lets a pending signal in. -/
theorem due_unblock (s : Process) : (s.unblock point).due = s.pending.toNat := by
  unfold Process.unblock
  cases hpending : s.pending with
  | true => rfl
  | false => rcases hpoint with rfl | rfl <;> simp [Process.due]

theorem op?_unblock (s : Process) : (s.unblock point).point.op? = none := by
  unfold Process.unblock
  split
  · rfl
  · rcases hpoint with rfl | rfl <;> rfl

end Unblock

theorem lib_unblock (s : Process) (point : Point) : (s.unblock point).lib = s.lib := by
  unfold Process.unblock
  split
  · rfl
  · rfl

/-- What a jump to an entry point has to do with a pending signal. -/
theorem after_entered (entryPoint : Address) (s : Process) :
    ∃ before : Process, Process.after (.entered entryPoint) s = before.unblock .entering ∧
      before.lib = s.lib ∧ before.pending = s.pending := by
  refine ⟨_, rfl, ?_⟩
  split
  · exact ⟨rfl, rfl⟩
  · exact ⟨rfl, rfl⟩

/-- A thread is resumed in the frame in which it was left, or that frame is gone. -/
theorem after_resumed (s : Process) :
    Process.after .resumed s = { s with point := .leaving } ∨
      Process.after .resumed s = { s with point := .lost } := by
  rw [Process.after]
  split
  · exact Or.inr rfl
  · exact Or.inl rfl

section After

variable {outcome : Outcome} (houtcome : outcome ≠ .cleanedUp)
include houtcome

theorem running_after (hmasked : s.masked = true) : (Process.after outcome s).Running := by
  cases outcome with
  | returned value => exact hmasked
  | failed message => exact hmasked
  | entered entryPoint =>
      obtain ⟨before, hafter, -⟩ := after_entered entryPoint s
      rw [hafter]
      exact running_unblock (Or.inr rfl) before
  | resumed => rcases after_resumed s with hafter | hafter <;> rw [hafter] <;> exact hmasked
  | cleanedUp => exact absurd rfl houtcome

theorem due_after : (Process.after outcome s).due = s.pending.toNat := by
  cases outcome with
  | entered entryPoint =>
      obtain ⟨before, hafter, -, hpending⟩ := after_entered entryPoint s
      rw [hafter, due_unblock (Or.inr rfl), hpending]
  | resumed => rcases after_resumed s with hafter | hafter <;> simp [hafter, Process.due]
  | cleanedUp => exact absurd rfl houtcome
  | _ => simp [Process.after, Process.due]

theorem op?_after : (Process.after outcome s).point.op? = none := by
  cases outcome with
  | entered entryPoint =>
      obtain ⟨before, hafter, -⟩ := after_entered entryPoint s
      rw [hafter]
      exact op?_unblock (Or.inr rfl) before
  | resumed => rcases after_resumed s with hafter | hafter <;> rw [hafter] <;> rfl
  | cleanedUp => exact absurd rfl houtcome
  | _ => rfl

end After

theorem lib_after (outcome : Outcome) (s : Process) : (Process.after outcome s).lib = s.lib := by
  cases outcome with
  | entered entryPoint =>
      obtain ⟨before, hafter, hlib, -⟩ := after_entered entryPoint s
      rw [hafter, lib_unblock, hlib]
  | resumed => rcases after_resumed s with hafter | hafter <;> rw [hafter]
  | _ => rfl

/-- A body serves one operation. -/
theorem body_serves (op : Op) {outcome : Outcome} {lib' : ThreadLibrary} (h : Scheduled s.lib)
    (hmasked : s.masked = true) (hmain : op ≠ .terminate 0)
    (hrun : op.perform s.lib = some (outcome, lib')) :
    Run Answers s.lib [(op, outcome)] (Process.after outcome { s with lib := lib' }).lib ∧
      (Process.after outcome { s with lib := lib' }).Running ∧
      (Process.after outcome { s with lib := lib' }).due = s.pending.toNat ∧
      (Process.after outcome { s with lib := lib' }).point.op? = none := by
  have houtcome := (h.of_perform hmain hrun).1.outcome_ne_cleanedUp
  refine ⟨?_, running_after houtcome hmasked, due_after houtcome, op?_after houtcome⟩
  rw [lib_after]
  exact Run.start.next ⟨hmain, hrun⟩

theorem serves_step (h : Scheduled s.lib) (hrunning : s.Running) (hstep : Process.Step s event s')
    (hends : event.ends = false) : s'.Running ∧ ∃ more, Serves s event more s' := by
  cases hstep with
  | @call op hpoint htick =>
      have hmain : op ≠ .terminate 0 := by
        rintro rfl
        cases hends
      refine ⟨⟨rfl, htick, hmain⟩, [], .start, ?_, ?_⟩
      · rw [hpoint]
        rfl
      · simp [Process.due, ticks, hpoint]
  | @body op outcome lib' hpoint hrun =>
      rw [Process.Running, hpoint] at hrunning
      obtain ⟨hmasked, htick, hnot⟩ := hrunning
      obtain ⟨hserved, hrunning', hdue, hop⟩ := body_serves op h hmasked hnot hrun
      refine ⟨hrunning', [(op, outcome)], hserved, ?_, ?_⟩
      · rw [hop, hpoint]
        simp [calls, htick, Point.op?, Event.op?]
      · rw [hdue]
        simp [Process.due, ticks, hpoint, htick]
  | @handler outcome lib' hpoint hrun =>
      rw [Process.Running, hpoint] at hrunning
      obtain ⟨hserved, hrunning', hdue, hop⟩ :=
        body_serves .tick h hrunning (by decide) hrun
      refine ⟨hrunning', [(.tick, outcome)], hserved, ?_, ?_⟩
      · rw [hop, hpoint]
        rfl
      · rw [hdue]
        simp [Process.due, ticks, hpoint]
  | enter hpoint =>
      rw [Process.Running, hpoint] at hrunning
      refine ⟨hrunning, [], .start, ?_, ?_⟩
      · rw [hpoint]
        rfl
      · simp [Process.due, ticks, hpoint]
  | leave hpoint =>
      refine ⟨running_unblock (Or.inl rfl) s, [], ?_, ?_, ?_⟩
      · rw [lib_unblock]
        exact .start
      · rw [op?_unblock (Or.inl rfl), hpoint]
        rfl
      · rw [due_unblock (Or.inl rfl)]
        simp [Process.due, ticks, hpoint]
  | leaveCleaned hpoint =>
      rw [Process.Running, hpoint] at hrunning
      exact hrunning.elim
  | signal hmasked hended hentering =>
      cases hpoint : s.point with
      | user =>
          rw [Process.Running, hpoint] at hrunning
          refine ⟨rfl, [], .start, ?_, ?_⟩
          · rw [hpoint]
            rfl
          · simp [Process.due, ticks, hpoint, hrunning.2]
      | entering => exact absurd hpoint hentering
      | ended => exact absurd hpoint hended
      | _ => simp [Process.Running, hpoint, hmasked] at hrunning
  | signalEntering _ hpoint =>
      rw [Process.Running, hpoint] at hrunning
      refine ⟨rfl, [], .start, ?_, ?_⟩
      · rw [hpoint]
        rfl
      · simp [Process.due, ticks, hpoint, hrunning.2, Process.overtake]
  | signalMasked hmasked _ _ =>
      have hrunning' : ({ s with pending := true } : Process).Running := by
        revert hrunning
        unfold Process.Running
        cases hpoint : s.point <;> simp [hmasked]
      refine ⟨hrunning', [], .start, ?_, ?_⟩
      · simp [calls, Event.op?]
      · cases hpending : s.pending with
        | true => simp [Process.due, ticks, hpending]
        | false => simp [Process.due, ticks, hpending]
  | destroy _ => cases hends
  | exit hpoint =>
      rw [Process.Running, hpoint] at hrunning
      exact hrunning.elim

/-! ### Runs -/

variable {start : ThreadLibrary} {events : List Event}

theorem Viewed.of_serves {more : List (Op × Outcome)} (h : Viewed s.lib)
    (hserves : Serves s event more s') : Viewed s'.lib :=
  (h.run hserves.run).2

/-- What begins an operation. -/
def Op.opening (op : Op) : Event := if op = .tick then .signal else .call op

/-- What is left of a function behind its body. -/
def Outcome.closing : Outcome → List Event
  | .entered _ => [.enter]
  | _ => [.unblock]

/-- An operation with no signal in it. -/
def undisturbed (answer : Op × Outcome) : List Event :=
  answer.1.opening :: .body :: answer.2.closing

@[simp]
theorem Event.op?_call (op : Op) : (Event.call op).op? = some op := rfl

@[simp]
theorem Event.op?_signal : Event.signal.op? = none := rfl

@[simp]
theorem Event.op?_body : Event.body.op? = none := rfl

@[simp]
theorem count_closing (outcome : Outcome) : outcome.closing.count .signal = 0 := by
  cases outcome with
  | entered entryPoint => rfl
  | _ => rfl

theorem op?_of_mem_closing {outcome : Outcome} (hevent : event ∈ outcome.closing) :
    event.op? = none := by
  cases outcome with
  | _ =>
      obtain rfl := List.mem_singleton.mp hevent
      rfl

theorem count_undisturbed (answers : List (Op × Outcome)) :
    (answers.flatMap undisturbed).count .signal = ticks answers := by
  induction answers with
  | nil => rfl
  | cons answer answers ih =>
      have hhead : (undisturbed answer).count .signal = ticks [answer] := by
        by_cases htick : answer.1 = .tick
        · simp [undisturbed, Op.opening, ticks, htick]
        · simp [undisturbed, Op.opening, ticks, htick]
      calc (undisturbed answer ++ answers.flatMap undisturbed).count .signal
          = ticks [answer] + ticks answers := by rw [List.count_append, hhead, ih]
        _ = ticks (answer :: answers) := (ticks_append [answer] answers).symm

theorem filterMap_undisturbed (answers : List (Op × Outcome)) :
    (answers.flatMap undisturbed).filterMap Event.op? = calls answers := by
  induction answers with
  | nil => rfl
  | cons answer answers ih =>
      have hhead : (undisturbed answer).filterMap Event.op? = calls [answer] := by
        by_cases htick : answer.1 = .tick
        · simpa [undisturbed, Op.opening, calls, htick] using fun _ => op?_of_mem_closing
        · simpa [undisturbed, Op.opening, calls, htick] using fun _ => op?_of_mem_closing
      calc (undisturbed answer ++ answers.flatMap undisturbed).filterMap Event.op?
          = calls [answer] ++ calls answers := by rw [List.filterMap_append, hhead, ih]
        _ = calls (answer :: answers) := (calls_append [answer] answers).symm

/-- The rest of a function behind its body. -/
theorem run_closing {outcome : Outcome} (hpending : s.pending = false)
    (hovertaken : s.overtaken = []) (houtcome : outcome ≠ .cleanedUp) :
    Run (Meeting Process.Step Unmerged) (Process.after outcome s) outcome.closing
      (.afterInit s.lib) := by
  have hleave : Run (Meeting Process.Step Unmerged) { s with point := .leaving } [.unblock]
      (.afterInit s.lib) := by
    have hback : Process.unblock .user { s with point := .leaving } = .afterInit s.lib := by
      simp [Process.unblock, Process.afterInit, hpending, hovertaken]
    rw [← hback]
    exact Run.start.next ⟨.leave rfl, fun hsignal => absurd hsignal (by decide)⟩
  cases outcome with
  | entered entryPoint =>
      have hentering : Process.after (.entered entryPoint) s =
          { Process.afterInit s.lib with point := .entering } := by
        simp [Process.after, Process.unblock, Process.afterInit, hpending, hovertaken]
      rw [hentering]
      exact Run.start.next ⟨.enter rfl, fun hsignal => absurd hsignal (by decide)⟩
  | resumed =>
      rw [Process.after, if_neg (by simp [hovertaken])]
      exact hleave
  | cleanedUp => exact absurd rfl houtcome
  | _ => exact hleave

theorem run_undisturbed {answer : Op × Outcome} {lib' : ThreadLibrary} (h : Scheduled lib)
    (hstep : Answers lib answer lib') :
    Run (Meeting Process.Step Unmerged) (.afterInit lib) (undisturbed answer)
      (.afterInit lib') := by
  obtain ⟨op, outcome⟩ := answer
  obtain ⟨hmain, hrun⟩ := hstep
  have houtcome := (h.of_perform hmain hrun).1.outcome_ne_cleanedUp
  by_cases htick : op = .tick
  · subst htick
    have hsignal : Run (Meeting Process.Step Unmerged) (.afterInit lib) [.signal]
        { Process.afterInit lib with point := .handling, masked := true } :=
      Run.start.next ⟨.signal rfl nofun nofun, fun _ => rfl⟩
    have hbody := hsignal.next ⟨.handler rfl hrun, fun hsignal => absurd hsignal (by decide)⟩
    exact hbody.append (run_closing rfl rfl houtcome)
  · have hcall : Run (Meeting Process.Step Unmerged) (.afterInit lib) [.call op]
        { Process.afterInit lib with point := .calling op, masked := true } :=
      Run.start.next ⟨.call rfl htick, fun hsignal => absurd hsignal (by simp)⟩
    have hbody := hcall.next ⟨.body rfl hrun, fun hsignal => absurd hsignal (by decide)⟩
    rw [undisturbed, Op.opening, if_neg htick]
    exact hbody.append (run_closing rfl rfl houtcome)

theorem Viewed.process_run {answers : List (Op × Outcome)} (h : Viewed start)
    (hrun : Run Answers start answers lib) :
    Run (Meeting Process.Step Unmerged) (.afterInit start) (answers.flatMap undisturbed)
      (.afterInit lib) := by
  induction hrun with
  | start => exact .start
  | next hbefore hstep ih =>
      have hscheduled := (h.run hbefore).2.scheduled
      rw [List.flatMap_append, List.flatMap_singleton]
      exact ih.append (run_undisturbed hscheduled hstep)

/-- Every run of the scheduler is what some process does, with a signal for each tick. -/
theorem process_realizes (hinit : Initialized start) {answers : List (Op × Outcome)}
    {final : Scheduler} (hrun : Run Scheduler.Answers .initial answers final) :
    ∃ events lib, Run (Meeting Process.Step Unmerged) (.afterInit start) events (.afterInit lib) ∧
      lib.scheduler = final ∧ events.filterMap Event.op? = calls answers ∧
      events.count .signal = ticks answers := by
  obtain rfl := initialized_iff.mp hinit
  rw [← scheduler_initialized] at hrun
  obtain ⟨lib, hanswers, hview⟩ := viewed_initialized.exists_run hrun
  exact ⟨answers.flatMap undisturbed, lib, viewed_initialized.process_run hanswers, hview,
    filterMap_undisturbed answers, count_undisturbed answers⟩

/-- A thread is spawned and entered with the first signal. -/
theorem process_realizes_entered : ∃ events lib,
    Run (Meeting Process.Step Unmerged) (.afterInit .initialized) events (.afterInit lib) ∧
      lib.scheduler.queue = [1, 0] ∧ events.filterMap Event.op? = [.spawn 7] ∧
      events.count .signal = 1 := by
  have hspawn : Run Scheduler.Answers .initial [(.spawn 7, .returned 1)] _ :=
    Run.start.next ⟨by decide, rfl⟩
  have htick : Run Scheduler.Answers .initial [(.spawn 7, .returned 1), (.tick, .entered 7)] _ :=
    hspawn.next ⟨by decide, rfl⟩
  obtain ⟨events, lib, hrun, hview, hcalls, hticks⟩ :=
    process_realizes (initialized_iff.mpr rfl) htick
  exact ⟨events, lib, hrun, by rw [hview]; rfl, hcalls, hticks⟩

end OsExercises.Uthreads
