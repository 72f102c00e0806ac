import OsExercises.Library.Parties
import OsExercises.Library.Runs

/-!
# The barrier

`Barrier::barrier` of `Barrier.cpp`, called by `n` threads over and over. A thread takes the steps of
the function one at a time, in any order with the steps of the others: it locks the mutex, counts
itself and waits or wakes all who wait, and unlocks the mutex. `pthread_cond_wait` gives the mutex
back and returns with it: after a broadcast, or without one, since POSIX lets it. A thread that wakes
up early and does not get the mutex before the broadcast is as good as woken by it.

`entered` and `returned` count the calls of each thread. They are not in the source: the claims about
the barrier are about them.
-/

namespace OsExercises.MapReduce

open Function (update)

inductive BarrierPoint where
  | outside
  | locking
  | locked
  | waiting
  | woken
  | unlocking
deriving DecidableEq

/-- The thread has called the function and was not let through yet. -/
def BarrierPoint.inRound : BarrierPoint → Nat
  | .locking => 1
  | .locked => 1
  | .waiting => 1
  | _ => 0

/-- The thread has called the function and has not returned yet. -/
def BarrierPoint.inCall : BarrierPoint → Nat
  | .outside => 0
  | _ => 1

structure Barrier (n : Nat) where
  mutex : Option (Fin n)
  count : Nat
  points : Fin n → BarrierPoint
  entered : Fin n → Nat
  returned : Fin n → Nat

inductive BarrierEvent (n : Nat) where
  | enter (i : Fin n)
  | lock (i : Fin n)
  | count (i : Fin n)
  | wakeUp (i : Fin n)
  | relock (i : Fin n)
  | unlock (i : Fin n)
deriving DecidableEq

namespace Barrier

variable {n : Nat}

/-- The constructor. -/
def new (n : Nat) : Barrier n where
  mutex := none
  count := 0
  points := fun _ => .outside
  entered := fun _ => 0
  returned := fun _ => 0

def setPoint (b : Barrier n) (i : Fin n) (point : BarrierPoint) : Barrier n :=
  { b with points := update b.points i point }

@[simp] theorem setPoint_count (b : Barrier n) (i : Fin n) (point : BarrierPoint) :
    (b.setPoint i point).count = b.count := rfl

/-- `pthread_cond_broadcast`. -/
def broadcast (b : Barrier n) : Barrier n :=
  { b with points := fun i => if b.points i = .waiting then .woken else b.points i }

inductive Step : Barrier n → BarrierEvent n → Barrier n → Prop where
  | enter {b : Barrier n} {i : Fin n} :
      b.points i = .outside →
      Step b (.enter i) { b.setPoint i .locking with entered := update b.entered i (b.entered i + 1) }
  | lock {b : Barrier n} {i : Fin n} :
      b.points i = .locking → b.mutex = none →
      Step b (.lock i) { b.setPoint i .locked with mutex := some i }
  | wait {b : Barrier n} {i : Fin n} :
      b.points i = .locked → b.count + 1 < n →
      Step b (.count i) { b.setPoint i .waiting with count := b.count + 1, mutex := none }
  | wakeAll {b : Barrier n} {i : Fin n} :
      b.points i = .locked → ¬ b.count + 1 < n →
      Step b (.count i) { b.broadcast.setPoint i .unlocking with count := 0 }
  | wakeUp {b : Barrier n} {i : Fin n} :
      b.points i = .waiting → b.mutex = none →
      Step b (.wakeUp i) { b.setPoint i .unlocking with mutex := some i }
  | relock {b : Barrier n} {i : Fin n} :
      b.points i = .woken → b.mutex = none →
      Step b (.relock i) { b.setPoint i .unlocking with mutex := some i }
  | unlock {b : Barrier n} {i : Fin n} :
      b.points i = .unlocking →
      Step b (.unlock i)
        { b.setPoint i .outside with mutex := none, returned := update b.returned i (b.returned i + 1) }

/-- `pthread_cond_wait` returns after a broadcast only. -/
def NotEarly (_ : Barrier n) (event : BarrierEvent n) (_ : Barrier n) : Prop :=
  ∀ i, event ≠ .wakeUp i

/-! ### The invariant -/

/-- `round` rounds are over: every thread was let through as often, and the ones that count for the
next round all wait. -/
structure RoundInv (b : Barrier n) (round : Nat) : Prop where
  entered : ∀ i, b.entered i = round + (b.points i).inRound
  called : ∀ i, b.entered i = b.returned i + (b.points i).inCall
  count : b.count = countParties (· = .waiting) b.points
  count_lt : b.count < n

namespace RoundInv

variable {b b' : Barrier n} {round : Nat} {event : BarrierEvent n}

theorem new (hn : 1 ≤ n) : RoundInv (new n) 0 where
  entered _ := rfl
  called _ := rfl
  count := (total_eq_zero fun _ => rfl).symm
  count_lt := hn

/-- One thread moves within the round. -/
theorem move (h : RoundInv b round) {i : Fin n} {point : BarrierPoint}
    (hpoints : b'.points = update b.points i point)
    (hothers : ∀ j, j ≠ i → b'.entered j = b.entered j ∧ b'.returned j = b.returned j)
    (hentered : b'.entered i = round + point.inRound)
    (hcalled : b'.entered i = b'.returned i + point.inCall)
    (hcount : b'.count + (if b.points i = .waiting then 1 else 0) =
      b.count + if point = .waiting then 1 else 0)
    (hlt : b'.count < n) : RoundInv b' round := by
  have hself : b'.points i = point := by rw [hpoints, Function.update_self]
  have hother : ∀ j, j ≠ i → b'.points j = b.points j :=
    fun j hne => by rw [hpoints, Function.update_of_ne hne]
  constructor
  · intro j
    by_cases heq : j = i
    · rw [heq, hself, hentered]
    · rw [hother j heq, (hothers j heq).1, h.entered j]
  · intro j
    by_cases heq : j = i
    · rw [heq, hself, hcalled]
    · rw [hother j heq, (hothers j heq).1, (hothers j heq).2, h.called j]
  · have hupdate := countParties_update (· = BarrierPoint.waiting) b.points i point
    rw [hpoints]
    rw [← h.count] at hupdate
    omega
  · exact hlt

/-- One thread moves within its call. -/
theorem moveInside (h : RoundInv b round) {i : Fin n} {point : BarrierPoint}
    (hpoints : b'.points = update b.points i point) (hentered : b'.entered = b.entered)
    (hreturned : b'.returned = b.returned) (hround : (b.points i).inRound = point.inRound)
    (hcall : (b.points i).inCall = point.inCall)
    (hcount : b'.count + (if b.points i = .waiting then 1 else 0) =
      b.count + if point = .waiting then 1 else 0)
    (hlt : b'.count < n) : RoundInv b' round := by
  apply h.move hpoints _ _ _ hcount hlt
  · intro j _
    rw [hentered, hreturned]
    exact ⟨rfl, rfl⟩
  · rw [hentered, h.entered i, hround]
  · rw [hentered, hreturned, h.called i, hcall]

/-- The last thread of a round finds all the others waiting. -/
theorem wakeAll (h : RoundInv b round) {i : Fin n} (hi : b.points i = .locked)
    (hlast : ¬ b.count + 1 < n) :
    RoundInv { b.broadcast.setPoint i .unlocking with count := 0 } (round + 1) := by
  have hall : ∀ j, j ≠ i → b.points j = .waiting := by
    intro j hne
    have hcard : countParties (· = BarrierPoint.waiting) b.points + 1 = Fintype.card (Fin n) := by
      rw [← h.count, Fintype.card_fin]
      have hlt := h.count_lt
      omega
    exact of_countParties_add_one _ _ hcard (by simp [hi]) hne
  have hpoints : ∀ j, update b.broadcast.points i .unlocking j =
      if j = i then .unlocking else .woken := by
    intro j
    by_cases heq : j = i
    · simp [heq]
    · simp [heq, broadcast, hall j heq]
  constructor
  · intro j
    change b.entered j = round + 1 + (update b.broadcast.points i .unlocking j).inRound
    rw [hpoints, h.entered j]
    by_cases heq : j = i
    · simp [heq, hi, BarrierPoint.inRound]
    · simp [heq, hall j heq, BarrierPoint.inRound]
  · intro j
    change b.entered j = b.returned j + (update b.broadcast.points i .unlocking j).inCall
    rw [hpoints, h.called j]
    by_cases heq : j = i
    · simp [heq, hi, BarrierPoint.inCall]
    · simp [heq, hall j heq, BarrierPoint.inCall]
  · symm
    apply total_eq_zero
    intro j
    change (if update b.broadcast.points i .unlocking j = .waiting then 1 else 0) = 0
    rw [hpoints]
    by_cases heq : j = i <;> simp [heq]
  · exact (Nat.zero_le _).trans_lt h.count_lt

/-- One step. -/
theorem step (h : RoundInv b round) (hstep : Step b event b') (hevent : ∀ i, event ≠ .wakeUp i) :
    ∃ round', RoundInv b' round' := by
  cases hstep with
  | @enter i hi =>
      have hentered := h.entered i
      have hcalled := h.called i
      rw [hi] at hentered hcalled
      refine ⟨round, h.move rfl ?_ ?_ ?_ ?_ h.count_lt⟩
      · intro j hne
        exact ⟨Function.update_of_ne hne _ _, rfl⟩
      · change update b.entered i (b.entered i + 1) i = _
        rw [Function.update_self, hentered]
        rfl
      · change update b.entered i (b.entered i + 1) i = b.returned i + 1
        rw [Function.update_self, hcalled]
        rfl
      · simp [hi]
  | lock hi _ =>
      refine ⟨round, h.moveInside rfl rfl rfl ?_ ?_ ?_ h.count_lt⟩
      · rw [hi]; rfl
      · rw [hi]; rfl
      · simp [hi]
  | wait hi hlt =>
      refine ⟨round, h.moveInside rfl rfl rfl ?_ ?_ ?_ hlt⟩
      · rw [hi]; rfl
      · rw [hi]; rfl
      · simp [hi]
  | wakeAll hi hlast => exact ⟨round + 1, h.wakeAll hi hlast⟩
  | wakeUp _ _ => exact absurd rfl (hevent _)
  | relock hi _ =>
      refine ⟨round, h.moveInside rfl rfl rfl ?_ ?_ ?_ h.count_lt⟩
      · rw [hi]; rfl
      · rw [hi]; rfl
      · simp [hi]
  | @unlock i hi =>
      have hentered := h.entered i
      have hcalled := h.called i
      rw [hi] at hentered hcalled
      refine ⟨round, h.move rfl ?_ ?_ ?_ ?_ h.count_lt⟩
      · intro j hne
        exact ⟨rfl, Function.update_of_ne hne _ _⟩
      · exact hentered
      · change b.entered i = update b.returned i (b.returned i + 1) i + 0
        rw [Function.update_self, hcalled]
        rfl
      · simp [hi]

/-- What a thread has returned from, all threads have entered. -/
theorem returned_le (h : RoundInv b round) (i : Fin n) : b.returned i ≤ round := by
  have hentered := h.entered i
  have hcalled := h.called i
  cases hpoint : b.points i <;> simp_all [BarrierPoint.inRound, BarrierPoint.inCall] <;> omega

theorem le_entered (h : RoundInv b round) (i : Fin n) : round ≤ b.entered i := by
  rw [h.entered i]
  exact Nat.le_add_right _ _

end RoundInv

/-! ### Runs -/

/-- No thread has returned from a call that some thread has not entered yet. -/
def Separates (b : Barrier n) : Prop := ∀ i j, b.returned i ≤ b.entered j

theorem exists_round (hn : 1 ≤ n) {events : List (BarrierEvent n)} {b : Barrier n}
    (hrun : Run (Meeting Step NotEarly) (new n) events b) : ∃ round, RoundInv b round := by
  apply hrun.invariant ⟨0, RoundInv.new hn⟩
  rintro b event b' ⟨round, h⟩ hstep
  exact h.step hstep.1 hstep.2

/-- A thread alone can always leave its call when it has the mutex, waking up early if it has to wait. -/
theorem exists_unlocking {b : Barrier n} {i : Fin n} (hi : b.points i = .locked) :
    ∃ events b', Run Step b events b' ∧ b'.points i = .unlocking ∧ b'.entered = b.entered ∧
      b'.returned = b.returned := by
  by_cases hlt : b.count + 1 < n
  · have hwait := Run.start.next (Step.wait hi hlt)
    have hwakeUp := hwait.next (.wakeUp (i := i) (Function.update_self i _ _) rfl)
    exact ⟨_, _, hwakeUp, Function.update_self i _ _, rfl, rfl⟩
  · have hlast := Run.start.next (Step.wakeAll hi hlt)
    exact ⟨_, _, hlast, Function.update_self i _ _, rfl, rfl⟩

/-- It can also return, and call the function again up to the same place. -/
theorem exists_locked {b : Barrier n} {i : Fin n} (hi : b.points i = .unlocking) :
    ∃ events b', Run Step b events b' ∧ b'.points i = .locked ∧
      b'.entered = update b.entered i (b.entered i + 1) ∧
      b'.returned = update b.returned i (b.returned i + 1) := by
  have hunlock := Run.start.next (Step.unlock hi)
  have henter := hunlock.next (.enter (i := i) (Function.update_self i _ _))
  have hlock := henter.next (.lock (i := i) (Function.update_self i _ _) rfl)
  exact ⟨_, _, hlock, Function.update_self i _ _, rfl, rfl⟩

/-- A thread that wakes up early runs through its call, and through the next one if it wakes up early
again or is taken for the last one of the round. -/
theorem exists_overtakes {b b' : Barrier n} {round : Nat} {i : Fin n} (h : RoundInv b round)
    (hstep : Step b (.wakeUp i) b') :
    ∃ events b'', Run Step b' events b'' ∧ ¬ b''.Separates := by
  cases hstep with
  | wakeUp hi hmutex =>
      -- another thread, which has not entered the call after the next one
      obtain ⟨j, hj⟩ : ∃ j, ¬ b.points j = .waiting := by
        apply exists_not_of_countParties_lt (· = BarrierPoint.waiting) b.points
        rw [← h.count, Fintype.card_fin]
        exact h.count_lt
      have hne : j ≠ i := fun heq => hj (heq ▸ hi)
      obtain ⟨events, b₁, hrun, hlocked, hentered, hreturned⟩ :=
        exists_locked (b := { b.setPoint i .unlocking with mutex := some i })
          (Function.update_self i _ _)
      obtain ⟨events₁, b₂, hrun₁, hunlocking, hentered₁, hreturned₁⟩ := exists_unlocking hlocked
      have hreturn := hrun₁.next (.unlock hunlocking)
      refine ⟨_, _, hrun.append hreturn, ?_⟩
      have hreturnedi : b₂.returned i = b.returned i + 1 := by
        rw [hreturned₁, hreturned]
        exact Function.update_self i _ _
      have henteredj : b₂.entered j = b.entered j := by
        rw [hentered₁, hentered]
        exact Function.update_of_ne hne _ _
      have hcalled := h.called i
      have hround := h.entered i
      have hroundj := h.entered j
      have hj' : (b.points j).inRound ≤ 1 := by cases b.points j <;> decide
      rw [hi] at hcalled hround
      intro hsep
      have hle : update b₂.returned i (b₂.returned i + 1) i ≤ b₂.entered j := hsep i j
      rw [Function.update_self] at hle
      simp only [BarrierPoint.inCall, BarrierPoint.inRound] at hcalled hround
      omega

/-- **The barrier.** As long as `pthread_cond_wait` returns after a broadcast only, no thread gets
ahead of another by a call. After the first time it returns early, the threads may go on so that one
does. -/
theorem separates_run (hn : 1 ≤ n) {events : List (BarrierEvent n)} {b : Barrier n}
    (hrun : Run (Meeting Step NotEarly) (new n) events b) :
    b.Separates ∧ ∀ i b', Step b (.wakeUp i) b' →
      ∃ events' b'', Run Step b' events' b'' ∧ ¬ b''.Separates := by
  obtain ⟨round, h⟩ := exists_round hn hrun
  constructor
  · exact fun i j => (h.returned_le i).trans (h.le_entered j)
  · exact fun i b' hstep => exists_overtakes h hstep

/-- After a whole round of two threads, one of them waits in the next one. -/
theorem separates_round : ∃ events b, Run (Meeting Step NotEarly) (new 2) events b ∧
    (∀ i, b.returned i = 1) ∧ b.points 1 = .waiting ∧ b.Separates ∧
    ∃ b' events' b'', Step b (.wakeUp 1) b' ∧ Run Step b' events' b'' ∧ ¬ b''.Separates := by
  have hrun : Run Step (new 2) [] _ := .start
  have hrun := hrun.next (.enter (i := 0) rfl)
  have hrun := hrun.next (.lock (i := 0) rfl rfl)
  have hrun := hrun.next (.wait (i := 0) rfl (by decide))
  have hrun := hrun.next (.enter (i := 1) rfl)
  have hrun := hrun.next (.lock (i := 1) rfl rfl)
  have hrun := hrun.next (.wakeAll (i := 1) rfl (by decide))
  have hrun := hrun.next (.unlock (i := 1) rfl)
  have hrun := hrun.next (.relock (i := 0) rfl rfl)
  have hrun := hrun.next (.unlock (i := 0) rfl)
  -- the next round
  have hrun := hrun.next (.enter (i := 1) rfl)
  have hrun := hrun.next (.lock (i := 1) rfl rfl)
  have hrun := hrun.next (.wait (i := 1) rfl (by decide))
  have hlate : Run (Meeting Step NotEarly) _ _ _ := hrun.meeting_of_forall (by simp [NotEarly])
  obtain ⟨hseparates, hearly⟩ := separates_run (by decide) hlate
  obtain ⟨events', b', hrun', hnot⟩ := hearly 1 _ (.wakeUp rfl rfl)
  exact ⟨_, _, hlate, Fin.forall_fin_two.mpr ⟨rfl, rfl⟩, rfl, hseparates, _, events', b',
    .wakeUp rfl rfl, hrun', hnot⟩

/-- One of two threads wakes up early and returns, before the other one has come. -/
theorem not_separates_wakeUp : ¬ ∀ n events (b : Barrier n), 1 ≤ n → Run Step (new n) events b →
    b.Separates := by
  intro hall
  have henter : Run Step (new 2) [.enter 0] _ := Run.start.next (.enter rfl)
  have hlock := henter.next (.lock (i := 0) rfl rfl)
  have hwait := hlock.next (.wait (i := 0) rfl (by decide))
  have hwakeUp := hwait.next (.wakeUp (i := 0) rfl rfl)
  have hreturn := hwakeUp.next (.unlock (i := 0) rfl)
  have hle := hall 2 _ _ (by decide) hreturn 0 1
  exact absurd hle (by decide)

end Barrier

end OsExercises.MapReduce
