import OsExercises.Uthreads.Ticks

/-!
# The timer

`ITIMER_VIRTUAL` counts the microseconds in which the process runs. `uthread_init` starts it with
`quantum_usecs` in both of its halves, so it starts itself again whenever it expires and raises
`SIGVTALRM`; `block_handler` and `terminate_handler` start it anew before they jump, and
`time_handler` leaves it alone. Between two microseconds the process takes any number of steps.

A thread is left before it has run for a quantum in its own code, and a timer that was started for it
leaves it a whole quantum. A signal is lost only in one that waits for as long as a quantum.
-/

namespace OsExercises.Uthreads

open ThreadLibrary

/-! ### `struct itimerval` -/

structure Timeval where
  tvSec : Int32
  tvUsec : Int32

/-- What `setitimer` takes. -/
def Timeval.Valid (value : Timeval) : Prop :=
  0 ≤ value.tvSec.toInt ∧ 0 ≤ value.tvUsec.toInt ∧ value.tvUsec.toInt < 1000000

def Timeval.usecs (value : Timeval) : Nat :=
  (value.tvSec.toInt * 1000000 + value.tvUsec.toInt).toNat

/-- `waited` is how long the pending signal has waited. It is not in the source. -/
structure TimedProcess where
  process : Process
  remaining : Nat
  waited : Nat

/-- A microsecond in which the timer does not expire, one in which it does, and a step. -/
inductive TimedEvent where
  | elapse
  | expire
  | step (event : Event)
deriving DecidableEq

def TimedEvent.event? : TimedEvent → Option Event
  | .elapse => none
  | .expire => some .signal
  | .step event => some event

def TimedEvent.usecs : TimedEvent → Nat
  | .elapse => 1
  | .expire => 1
  | .step _ => 0

def TimedEvent.ends : TimedEvent → Bool
  | .step event => event.ends
  | _ => false

/-- A call ends in `block_handler` or in `terminate_handler`. -/
def Process.restarts (s : Process) (event : Event) : Bool :=
  match s.point, event with
  | .calling op, .body => (op.perform s.lib).any fun result => result.1.switches
  | _, _ => false

namespace TimedProcess

/-- Behind `uthread_init`. -/
def afterInit (quantum : Nat) (lib : ThreadLibrary) : TimedProcess where
  process := .afterInit lib
  remaining := quantum
  waited := 0

def waitedBehind (s : TimedProcess) (event : TimedEvent) (process' : Process) : Nat :=
  if s.process.pending && process'.pending then s.waited + event.usecs else 0

inductive Step (quantum : Nat) : TimedProcess → TimedEvent → TimedProcess → Prop where
  | elapse {s : TimedProcess} :
      1 < s.remaining →
      Step quantum s .elapse
        { s with remaining := s.remaining - 1, waited := s.waitedBehind .elapse s.process }
  | expire {s : TimedProcess} {process' : Process} :
      s.remaining = 1 → s.process.Step .signal process' →
      Step quantum s .expire ⟨process', quantum, s.waitedBehind .expire process'⟩
  | step {s : TimedProcess} {event : Event} {process' : Process} :
      event ≠ .signal → s.process.Step event process' →
      Step quantum s (.step event)
        ⟨process', if s.process.restarts event then quantum else s.remaining,
          s.waitedBehind (.step event) process'⟩

end TimedProcess

/-! ### One step of the process -/

section Step

variable {s s' : Process} {event : Event}

theorem restarts_body {op : Op} {outcome : Outcome} {lib' : ThreadLibrary}
    (hpoint : s.point = .calling op) (hrun : op.perform s.lib = some (outcome, lib')) :
    s.restarts .body = outcome.switches := by
  simp [Process.restarts, hpoint, hrun]

/-- Only a signal makes a signal pending. -/
theorem pending_of_step (hstep : Process.Step s event s') (hevent : event ≠ .signal)
    (hpending : s'.pending = true) : s.pending = true := by
  have hunblock (s : Process) (point : Point) : (s.unblock point).pending = false := by
    unfold Process.unblock
    cases hs : s.pending with
    | true => rfl
    | false => simp
  have hafter {outcome : Outcome} {lib' : ThreadLibrary}
      (hbehind : (Process.after outcome { s with lib := lib' }).pending = true) :
      s.pending = true := by
    cases outcome with
    | entered entryPoint =>
        obtain ⟨before, heq, -⟩ := after_entered entryPoint { s with lib := lib' }
        rw [heq, hunblock] at hbehind
        cases hbehind
    | resumed =>
        rcases after_resumed { s with lib := lib' } with heq | heq <;> rw [heq] at hbehind <;>
          exact hbehind
    | _ => exact hbehind
  cases hstep with
  | call _ _ => exact hpending
  | body _ _ => exact hafter hpending
  | handler _ _ => exact hafter hpending
  | enter _ => exact hpending
  | leave _ =>
      rw [hunblock] at hpending
      cases hpending
  | leaveCleaned _ =>
      rw [hunblock] at hpending
      cases hpending
  | signal _ _ _ => exact absurd rfl hevent
  | signalEntering _ _ => exact absurd rfl hevent
  | signalMasked _ _ _ => exact absurd rfl hevent
  | destroy _ => exact hpending
  | exit _ => exact hpending

end Step

/-! ### One step with the timer -/

namespace TimedProcess

variable {quantum : Nat} {s s' : TimedProcess} {event : TimedEvent}

theorem waitedBehind_of_pending {process' : Process} (hbefore : s.process.pending = true)
    (hbehind : process'.pending = true) :
    s.waitedBehind event process' = s.waited + event.usecs := by
  rw [waitedBehind, hbefore, hbehind]
  rfl

theorem ends_of_event {e : Event} (hevent : event.event? = some e) (hends : event.ends = false) :
    e.ends = false := by
  cases event with
  | step e' => exact Option.some.inj hevent ▸ hends
  | expire => exact Option.some.inj hevent ▸ rfl
  | elapse => cases hevent

theorem process_step (hstep : Step quantum s event s') :
    (∃ e, event.event? = some e ∧ s.process.Step e s'.process) ∨
      event.event? = none ∧ s'.process = s.process := by
  cases hstep with
  | elapse _ => exact Or.inr ⟨rfl, rfl⟩
  | expire _ hsignal => exact Or.inl ⟨_, rfl, hsignal⟩
  | step _ hnext => exact Or.inl ⟨_, rfl, hnext⟩

/-- What holds between the microseconds, until the process begins to end. -/
structure Clocked (quantum : Nat) (s : TimedProcess) : Prop where
  viewed : Viewed s.process.lib
  running : s.process.Running
  pos : 0 < s.remaining
  le : s.remaining ≤ quantum
  waited : s.process.pending = true → quantum ≤ s.waited + s.remaining

theorem Clocked.step (h : Clocked quantum s) (hstep : Step quantum s event s')
    (hends : event.ends = false) : Clocked quantum s' := by
  have hquantum : 0 < quantum := h.pos.trans_le h.le
  have hprocess : Viewed s'.process.lib ∧ s'.process.Running := by
    rcases process_step hstep with ⟨e, hevent, hnext⟩ | ⟨-, hsame⟩
    · obtain ⟨hrunning, more, hserves⟩ :=
        serves_step h.viewed.scheduled h.running hnext (ends_of_event hevent hends)
      exact ⟨h.viewed.of_serves hserves, hrunning⟩
    · rw [hsame]
      exact ⟨h.viewed, h.running⟩
  refine ⟨hprocess.1, hprocess.2, ?_, ?_, ?_⟩
  · cases hstep with
    | elapse hremaining => exact Nat.sub_pos_of_lt hremaining
    | expire _ _ => exact hquantum
    | step _ _ =>
        change 0 < ite _ _ _
        split
        · exact hquantum
        · exact h.pos
  · cases hstep with
    | elapse _ => exact (Nat.sub_le _ _).trans h.le
    | expire _ _ => exact le_rfl
    | step _ _ =>
        change ite _ _ _ ≤ quantum
        split
        · exact le_rfl
        · exact h.le
  · intro hpending
    cases hstep with
    | elapse hremaining =>
        have hbefore : s.process.pending = true := hpending
        have hwaited := h.waited hbefore
        change quantum ≤ s.waitedBehind .elapse s.process + (s.remaining - 1)
        rw [waitedBehind_of_pending hbefore hbefore]
        change quantum ≤ s.waited + 1 + (s.remaining - 1)
        omega
    | expire _ _ => exact Nat.le_add_left _ _
    | @step event process' hevent hnext =>
        have hbefore := pending_of_step hnext hevent hpending
        have hwaited := h.waited hbefore
        change quantum ≤ s.waitedBehind (.step event) process' + ite _ _ _
        rw [waitedBehind_of_pending hbefore hpending]
        split
        · exact Nat.le_add_left _ _
        · exact hwaited

/-- A quantum that begins with a call has the timer started for it. -/
theorem started (h : Clocked quantum s) {op : Op} (hpoint : s.process.point = .calling op)
    (hstep : Step quantum s (.step .body) s')
    (hless : s.process.lib.totalQuantum < s'.process.lib.totalQuantum) :
    s'.process.due = s.process.pending.toNat ∧ s'.remaining = quantum := by
  cases hstep with
  | @step _ process' _ hnext =>
      have hrunning := h.running
      rw [Process.Running, hpoint] at hrunning
      cases hnext with
      | @body op' outcome lib' hpoint' hrun =>
          rw [hpoint] at hpoint'
          obtain rfl := Point.calling.inj hpoint'
          have heffect := (h.viewed.scheduled.of_perform hrunning.2.2 hrun).1
          constructor
          · exact due_after heffect.outcome_ne_cleanedUp
          · have htotal := switches_total heffect
            change s.process.lib.totalQuantum < (Process.after outcome _).lib.totalQuantum at hless
            rw [lib_after] at hless
            have hswitches : outcome.switches = true := by
              by_contra hnot
              rw [if_neg hnot] at htotal
              exact hless.ne htotal.symm
            change (if s.process.restarts .body then quantum else s.remaining) = quantum
            rw [restarts_body hpoint hrun, if_pos hswitches]
      | handler hpoint' _ =>
          rw [hpoint] at hpoint'
          cases hpoint'

/-! ### Runs -/

variable {start : TimedProcess} {events : List TimedEvent}

theorem process_run (hrun : Run (Step quantum) start events s) :
    Run Process.Step start.process (events.filterMap TimedEvent.event?) s.process ∧
      (events.filterMap TimedEvent.event?).count .signal = events.count .expire := by
  induction hrun with
  | start => exact ⟨.start, rfl⟩
  | @next events s s' event _ hstep ih =>
      obtain ⟨hbefore, hcount⟩ := ih
      rw [List.filterMap_append, List.count_append, List.count_append, hcount]
      cases hstep with
      | elapse _ =>
          change Run _ _ (_ ++ []) _ ∧ _ + 0 = _ + 0
          rw [List.append_nil]
          exact ⟨hbefore, rfl⟩
      | expire _ hsignal => exact ⟨hbefore.next hsignal, rfl⟩
      | @step event _ hevent hnext =>
          refine ⟨hbefore.next hnext, ?_⟩
          change _ + [event].count .signal = _ + [TimedEvent.step event].count .expire
          rw [List.count_singleton, List.count_singleton]
          simp [hevent]

end TimedProcess

end OsExercises.Uthreads
