import OsExercises.Uthreads.Scheduling

/-!
# Timer signals

The process with its signal mask. A function of the library blocks `SIGVTALRM` in its first line; a
signal that arrives from then on is pending, and gets in as soon as the mask lets it, that is, inside
the `sigprocmask` call of `unblock_signals (true)`, or inside the jump to a thread that runs for the
first time, whose saved mask is empty. Elsewhere in a program it gets in at once.

`siglongjmp` restores the saved mask before it jumps. So a signal that gets in there is handled on the
stack of the thread that is left, and the handler saves its own frame where the entry point of the
new thread was. When that thread is resumed, the handler returns into `siglongjmp`, which jumps to the
frame that has just returned: from there on C++ does not say what happens.

A program may make any call at any time. It ends by the termination of the main thread, where the
threads are deleted, the signal is unblocked and `exit (0)` is called; or because the main function
returns or a thread calls `exit`, which destroys the lists of the library, with the timer still
running.
-/

namespace OsExercises.Uthreads

open ThreadLibrary

/-- Where the thread that runs stands: outside of the library; behind `unblock_signals (false)`; in
front of the body of `time_handler`; in the jump to an entry point, with the mask restored; in front
of `unblock_signals (true)`, in a function that returns or behind `thread_cleanup`; in `exit`, behind
the lists; nowhere, when the process has ended; and in a frame that has returned. -/
inductive Point where
  | user
  | calling (op : Op)
  | handling
  | entering
  | leaving
  | cleaned
  | exiting
  | ended
  | lost
deriving DecidableEq

/-- `overtaken` are the threads that a signal has overtaken in the jump to their entry point. -/
structure Process where
  lib : ThreadLibrary
  point : Point
  masked : Bool
  pending : Bool
  overtaken : List Address

inductive Event where
  | call (op : Op)
  | body
  | enter
  | unblock
  | signal
  | destroy
  | exit
deriving DecidableEq

/-- The static lists behind their destructors. -/
def ThreadLibrary.destroyed (lib : ThreadLibrary) : ThreadLibrary :=
  { lib with readyQueue := [], allThreads := [], availableId := [] }

namespace Process

/-- The signal is unblocked; a pending one gets in before anything else, and is blocked in its own
handler. -/
def unblock (point : Point) (s : Process) : Process :=
  if s.pending then { s with point := .handling, masked := true, pending := false }
  else { s with point, masked := false }

/-- The thread that runs has not left the jump to its entry point when the handler saves it. -/
def overtake (s : Process) : Process :=
  { s with overtaken := s.lib.runningThread :: s.overtaken }

/-- What follows a body. A thread that was left through a handler saved a mask with the signal
blocked, and goes on behind the `sigsetjmp` of that handler, if the frame is still there. -/
def after (outcome : Outcome) (s : Process) : Process :=
  match outcome with
  | .returned _ => { s with point := .leaving }
  | .failed _ => { s with point := .leaving }
  | .entered _ => (if s.pending then s.overtake else s).unblock .entering
  | .resumed =>
      if s.lib.runningThread ∈ s.overtaken then { s with point := .lost }
      else { s with point := .leaving }
  | .cleanedUp => { s with point := .cleaned }

/-- Behind `uthread_init`. -/
def afterInit (lib : ThreadLibrary) : Process where
  lib
  point := .user
  masked := false
  pending := false
  overtaken := []

inductive Step : Process → Event → Process → Prop where
  | call {s : Process} {op : Op} :
      s.point = .user → op ≠ .tick →
      Step s (.call op) { s with point := .calling op, masked := true }
  | body {s : Process} {op : Op} {outcome : Outcome} {lib' : ThreadLibrary} :
      s.point = .calling op → op.perform s.lib = some (outcome, lib') →
      Step s .body (after outcome { s with lib := lib' })
  | handler {s : Process} {outcome : Outcome} {lib' : ThreadLibrary} :
      s.point = .handling → timeHandler s.lib = some (outcome, lib') →
      Step s .body (after outcome { s with lib := lib' })
  | enter {s : Process} : s.point = .entering → Step s .enter { s with point := .user }
  | leave {s : Process} : s.point = .leaving → Step s .unblock (s.unblock .user)
  | leaveCleaned {s : Process} : s.point = .cleaned → Step s .unblock (s.unblock .exiting)
  | signal {s : Process} :
      s.masked = false → s.point ≠ .ended → s.point ≠ .entering →
      Step s .signal { s with point := .handling, masked := true }
  | signalEntering {s : Process} :
      s.masked = false → s.point = .entering →
      Step s .signal { s.overtake with point := .handling, masked := true }
  | signalMasked {s : Process} :
      s.masked = true → s.point ≠ .ended → s.point ≠ .lost →
      Step s .signal { s with pending := true }
  | destroy {s : Process} :
      s.point = .user → Step s .destroy { s with lib := s.lib.destroyed, point := .exiting }
  | exit {s : Process} : s.point = .exiting → Step s .exit { s with point := .ended }

end Process

def ThreadLibrary.deleteAll (lib : ThreadLibrary) (ps : List Address) : ThreadLibrary :=
  { lib with threads := fun p => if p ∈ ps then none else lib.threads p }

theorem deleteAll_cons (lib : ThreadLibrary) (p : Address) (ps : List Address) :
    (lib.deleteObject p).deleteAll ps = lib.deleteAll (p :: ps) := by
  have hthreads : (fun q => if q ∈ ps then none else (lib.deleteObject p).threads q) =
      fun q => if q ∈ p :: ps then none else lib.threads q := by
    funext q
    rw [Core.deleteObject_threads]
    by_cases heq : q = p <;> simp [heq]
  exact congrArg (fun threads => { lib with threads }) hthreads

theorem run_deletes (ps : List Address) :
    ∀ {lib : ThreadLibrary}, ps.Nodup → (∀ p ∈ ps, p ≠ null ∧ lib.Alive p) →
      ps.forM delete lib = some ((), lib.deleteAll ps) := by
  induction ps with
  | nil =>
      intro lib _ _
      have hsame : lib.deleteAll [] = lib := by
        simp [ThreadLibrary.deleteAll]
      rw [hsame]
      rfl
  | cons p ps ih =>
      intro lib hnodup hps
      obtain ⟨hp, hnodup⟩ := List.nodup_cons.mp hnodup
      obtain ⟨hnull, halive⟩ := hps p List.mem_cons_self
      change (delete p >>= fun _ => ps.forM delete) lib = _
      rw [run_bind (run_delete hnull halive), ← deleteAll_cons]
      apply ih hnodup
      intro q hq
      obtain ⟨hnull', t, ht⟩ := hps q (List.mem_cons_of_mem p hq)
      refine ⟨hnull', t, ?_⟩
      rw [Core.deleteObject_threads, if_neg, ht]
      rintro rfl
      exact hp hq

/-- Every thread is deleted, once. -/
theorem run_terminateMain {lib : ThreadLibrary} (h : Scheduled lib) :
    uthreadTerminate 0 lib = some (.cleanedUp,
      { lib.deleteAll lib.allThreads with allThreads := [], readyQueue := [] }) := by
  obtain ⟨p, t, hp, hid, -⟩ := h.core.main
  have hexist : checkIfThreadExist (asUInt64 0) lib = some (0, lib) :=
    hid ▸ run_checkIfThreadExist h.core hp
  have hobjects : ∀ p ∈ lib.allThreads, p ≠ null ∧ lib.Alive p := by
    intro q hq
    obtain ⟨u, hu⟩ := h.core.alive hq
    exact ⟨member_ne_null h.core ⟨hq, hu⟩, u, hu⟩
  have hcleanup : threadCleanup lib = some ((),
      { lib.deleteAll lib.allThreads with allThreads := [], readyQueue := [] }) := by
    rw [threadCleanup, run_bind (run_get lib),
      run_bind (run_deletes lib.allThreads h.core.all_nodup hobjects)]
    rfl
  rw [uthreadTerminate, run_bind (run_get lib), run_bind hexist, run_ite, if_neg (by decide),
    run_ite, if_pos rfl, run_bind hcleanup]
  rfl

/-! ### One step -/

/-- Only the termination of the main thread ends in `exit (0)`. -/
theorem Effect.outcome_ne_cleanedUp {lib lib' : ThreadLibrary} {op : Op} {outcome : Outcome}
    (heffect : Effect lib op outcome lib') : outcome ≠ .cleanedUp := by
  cases heffect with
  | terminatedSelf _ _ _ _ _ _ | blockedSelf _ _ _ _ | slept _ _ _ _ | ticked _ _ _ =>
      exact landing_ne _ _ rfl
  | _ => simp

section Step

variable {s s' : Process} {event : Event}

end Step

/-! ### Runs -/

end OsExercises.Uthreads
