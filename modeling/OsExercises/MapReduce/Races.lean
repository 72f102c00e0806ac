import OsExercises.MapReduce.Mutex

/-!
# Data races

The workers share four objects that are not atomic: the two vectors of the shuffle, `outputVec`, and
the counter in the barrier. `reads` and `writes` list those that the next step of a worker reads and
writes, and a step depends on the values of the first only and changes the second only. No worker
writes an object while another one is about to read or write it: the mutex keeps the pushes apart, the
mutex of the barrier the counting, and the rounds of the barrier keep the shuffle apart from the
pushes before it and from the reduces behind it.
-/

namespace OsExercises.MapReduce

open Function (update)

inductive SharedObject where
  | beforeShuffle
  | afterShuffle
  | outputVec
  | count
deriving DecidableEq

/-- `count_elements`, `max_key`, the loops of `shuffle_phase`, and the groups in `reduce_phase`. -/
def Point.reads {K V : Type} : Point K V → List SharedObject
  | .countElements => [.beforeShuffle]
  | .shufflePhase .key => [.beforeShuffle]
  | .shufflePhase (.scan _ _ _) => [.beforeShuffle, .afterShuffle]
  | .shufflePhase .out => [.afterShuffle]
  | .reducePhase .next => [.afterShuffle]
  | .reducePhase (.call _) => [.afterShuffle]
  | .reducePhase (.count _) => [.afterShuffle]
  | _ => []

def Point.writes {K V : Type} : Point K V → List SharedObject
  | .shufflePhase (.scan _ _ _) => [.beforeShuffle, .afterShuffle]
  | _ => []

/-- The first half of a `push_back`. -/
def Section.reads {K V OutputPair : Type} : Section K V OutputPair → Point K V → List SharedObject
  | .locked, .pushBack => [.beforeShuffle]
  | .locked, .reducePhase (.count _) => [.outputVec]
  | _, _ => []

/-- The second half. -/
def Section.writes {K V OutputPair : Type} : Section K V OutputPair → List SharedObject
  | .pushing _ => [.beforeShuffle]
  | .emitting _ => [.outputVec]
  | _ => []

/-- `++count`, the comparison with it, and `count = 0`. -/
def BarrierPoint.accesses : BarrierPoint → List SharedObject
  | .locked => [.count]
  | _ => []

theorem Point.of_mem_reads {K V : Type} {point : Point K V} {object : SharedObject}
    (hobject : object ∈ point.reads) :
    (object = .beforeShuffle ∧ point.leading = true) ∨
      (object = .afterShuffle ∧ (point.leading = true ∨ point.rounds = 2)) := by
  cases point with
  | countElements => exact Or.inl ⟨List.mem_singleton.mp hobject, rfl⟩
  | shufflePhase point => cases point <;> simp_all [reads, leading]
  | reducePhase point => cases point <;> simp_all [reads, rounds]
  | _ => cases hobject

theorem Point.of_mem_writes {K V : Type} {point : Point K V} {object : SharedObject}
    (hobject : object ∈ point.writes) :
    point.leading = true ∧ (object = .beforeShuffle ∨ object = .afterShuffle) := by
  cases point with
  | shufflePhase point => cases point <;> simp_all [writes, leading]
  | _ => cases hobject

theorem Section.of_mem_reads {K V OutputPair : Type} {place : Section K V OutputPair}
    {point : Point K V} {object : SharedObject} (hobject : object ∈ place.reads point) :
    place = .locked ∧ ((object = .beforeShuffle ∧ point = .pushBack) ∨ object = .outputVec) := by
  cases place with
  | locked =>
      cases point with
      | pushBack => exact ⟨rfl, Or.inl ⟨List.mem_singleton.mp hobject, rfl⟩⟩
      | reducePhase point => cases point <;> simp_all [reads]
      | _ => cases hobject
  | _ => cases hobject

theorem Section.of_mem_writes {K V OutputPair : Type} {place : Section K V OutputPair}
    {object : SharedObject} (hobject : object ∈ place.writes) :
    (∃ vecs, place = .pushing vecs ∧ object = .beforeShuffle) ∨
      ∃ outputVec, place = .emitting outputVec ∧ object = .outputVec := by
  cases place with
  | pushing vecs => exact Or.inl ⟨vecs, rfl, List.mem_singleton.mp hobject⟩
  | emitting outputVec => exact Or.inr ⟨outputVec, rfl, List.mem_singleton.mp hobject⟩
  | _ => cases hobject

theorem BarrierPoint.of_mem_accesses {point : BarrierPoint} {object : SharedObject}
    (hobject : object ∈ point.accesses) : point = .locked ∧ object = .count := by
  cases point with
  | locked => exact ⟨rfl, List.mem_singleton.mp hobject⟩
  | _ => cases hobject

/-- The values of the objects. -/
structure Shared (K V OutputPair : Type) where
  beforeShuffle : List (IntermediateVec K V)
  afterShuffle : List (IntermediateVec K V)
  outputVec : List OutputPair
  count : Nat

def Shared.Same {K V OutputPair : Type} (d d' : Shared K V OutputPair) : SharedObject → Prop
  | .beforeShuffle => d.beforeShuffle = d'.beforeShuffle
  | .afterShuffle => d.afterShuffle = d'.afterShuffle
  | .outputVec => d.outputVec = d'.outputVec
  | .count => d.count = d'.count

@[simp] theorem Shared.same_self {K V OutputPair : Type} (d : Shared K V OutputPair)
    (object : SharedObject) : d.Same d object := by
  cases object <;> rfl

/-! ### What a step reads and writes -/

namespace Barrier

variable {n : Nat} {b b' : Barrier n} {event : BarrierEvent n}

/-- The counter matters to the thread that counts itself only. -/
theorem step_count (hstep : Step b event b') {count : Nat}
    (hcount : b.points event.thread = .locked → count = b.count) :
    ∃ count', Step { b with count := count } event { b' with count := count' } ∧
      ((b.points event.thread = .locked ∧ count' = b'.count) ∨
        (count' = count ∧ b'.count = b.count)) := by
  cases hstep with
  | enter hi => exact ⟨count, .enter hi, Or.inr ⟨rfl, rfl⟩⟩
  | lock hi hfree => exact ⟨count, .lock hi hfree, Or.inr ⟨rfl, rfl⟩⟩
  | wait hi hlt =>
      obtain rfl := hcount hi
      exact ⟨b.count + 1, .wait hi hlt, Or.inl ⟨hi, rfl⟩⟩
  | wakeAll hi hlast =>
      obtain rfl := hcount hi
      exact ⟨0, .wakeAll hi hlast, Or.inl ⟨hi, rfl⟩⟩
  | wakeUp hi hfree => exact ⟨count, .wakeUp hi hfree, Or.inr ⟨rfl, rfl⟩⟩
  | relock hi hfree => exact ⟨count, .relock hi hfree, Or.inr ⟨rfl, rfl⟩⟩
  | unlock hi => exact ⟨count, .unlock hi, Or.inr ⟨rfl, rfl⟩⟩

/-- A thread between `pthread_mutex_lock` and `pthread_mutex_unlock` has the mutex. -/
def Owned (b : Barrier n) : Prop :=
  ∀ i, b.points i = .locked ∨ b.points i = .unlocking → b.mutex = some i

/-- The thread that moves gets the mutex from nobody, or had it. -/
theorem Owned.take (h : b.Owned) {i : Fin n} {point : BarrierPoint}
    (hpoints : b'.points = update b.points i point) (hmutex : b'.mutex = some i)
    (hfree : b.mutex = none ∨ b.mutex = some i) : b'.Owned := by
  intro j hj
  by_cases heq : j = i
  · rw [heq, hmutex]
  · rw [hpoints, Function.update_of_ne heq] at hj
    have hown := h j hj
    rcases hfree with hfree | hfree
    · rw [hfree] at hown
      cases hown
    · rw [hfree] at hown
      exact absurd (Option.some.inj hown).symm heq

/-- The thread that moves has given the mutex back. -/
theorem Owned.give (h : b.Owned) {i : Fin n} {point : BarrierPoint}
    (hpoints : b'.points = update b.points i point) (hmutex : b.mutex = some i)
    (hpoint : point ≠ .locked ∧ point ≠ .unlocking) : b'.Owned := by
  intro j hj
  by_cases heq : j = i
  · rw [hpoints, heq, Function.update_self] at hj
    exact (hj.elim hpoint.1 hpoint.2).elim
  · rw [hpoints, Function.update_of_ne heq] at hj
    have hown := h j hj
    rw [hmutex] at hown
    exact absurd (Option.some.inj hown).symm heq

theorem Owned.broadcast (h : b.Owned) : b.broadcast.Owned := by
  intro i hi
  apply h i
  change (if b.points i = .waiting then .woken else b.points i) = .locked ∨
    (if b.points i = .waiting then .woken else b.points i) = .unlocking at hi
  by_cases hwaiting : b.points i = .waiting
  · rw [if_pos hwaiting] at hi
    rcases hi with hi | hi <;> cases hi
  · rwa [if_neg hwaiting] at hi

theorem Owned.step (h : b.Owned) (hstep : Step b event b') : b'.Owned := by
  cases hstep with
  | @enter i hi =>
      intro j hj
      by_cases heq : j = i
      · subst heq
        simp [setPoint] at hj
      · exact h j (by simpa [setPoint, heq] using hj)
  | lock _ hfree => exact h.take rfl rfl (Or.inl hfree)
  | wait hi _ => exact h.give rfl (h _ (Or.inl hi)) ⟨nofun, nofun⟩
  | wakeAll hi _ =>
      have hmutex := h _ (Or.inl hi)
      exact h.broadcast.take rfl hmutex (Or.inr hmutex)
  | wakeUp _ hfree => exact h.take rfl rfl (Or.inl hfree)
  | relock _ hfree => exact h.take rfl rfl (Or.inl hfree)
  | unlock hi => exact h.give rfl (h _ (Or.inr hi)) ⟨nofun, nofun⟩

end Barrier

/-- `max_key` reads the sorted vectors only. -/
theorem Shuffle.key_step {K V : Type} {less : K → K → Bool}
    {before after : List (IntermediateVec K V)} {amount : Nat} {s' : Shuffle K V}
    (hstep : Step less ⟨before, after, .key⟩ amount s') (after' : List (IntermediateVec K V)) :
    s'.beforeShuffle = before ∧ s'.afterShuffle = after ∧
      Step less ⟨before, after', .key⟩ amount ⟨before, after', s'.point⟩ := by
  cases hkey : maxKey less before with
  | none =>
      simp only [Step, next, hkey, Option.some.injEq, Prod.mk.injEq] at hstep ⊢
      obtain ⟨rfl, rfl⟩ := hstep
      exact ⟨rfl, rfl, rfl, rfl⟩
  | some key =>
      simp only [Step, next, hkey, Option.some.injEq, Prod.mk.injEq] at hstep ⊢
      obtain ⟨rfl, rfl⟩ := hstep
      exact ⟨rfl, rfl, rfl, rfl⟩

namespace Job

variable {n : Nat} {InputPair K V OutputPair : Type} {client : Client InputPair K V OutputPair}
  {inputVec : List InputPair} {s s' : Job n InputPair K V OutputPair}

def shared (s : Job n InputPair K V OutputPair) : Shared K V OutputPair :=
  ⟨s.beforeShuffle, s.afterShuffle, s.outputVec, s.barrier.count⟩

def withShared (s : Job n InputPair K V OutputPair) (d : Shared K V OutputPair) :
    Job n InputPair K V OutputPair :=
  { s with
    beforeShuffle := d.beforeShuffle
    afterShuffle := d.afterShuffle
    outputVec := d.outputVec
    barrier := { s.barrier with count := d.count } }

/-- The object was written the same in both, or in neither. -/
def SameWrites (writes : List SharedObject) (s s' : Job n InputPair K V OutputPair)
    (d d' : Shared K V OutputPair) : Prop :=
  ∀ object, (object ∈ writes ∧ d'.Same s'.shared object) ∨
    (d'.Same d object ∧ s'.shared.Same s.shared object)

theorem own_accesses {i : Fin n} (hstep : Step client inputVec s (.own i) s')
    (hlocks : (s.workers i).locks = false) {d : Shared K V OutputPair}
    (hreads : ∀ object ∈ (s.workers i).point.reads, d.Same s.shared object) :
    ∃ d', Step client inputVec (s.withShared d) (.own i) (s'.withShared d') ∧
      SameWrites (s.workers i).point.writes s s' d d' := by
  have hnone : s'.shared = s.shared → SameWrites (s.workers i).point.writes s s' d d :=
    fun hshared object => Or.inr ⟨d.same_self object, hshared ▸ s.shared.same_self object⟩
  cases hstep with
  | mapLoad hi => exact ⟨d, .mapLoad hi, hnone rfl⟩
  | mapNext hi => exact ⟨d, .mapNext hi, hnone rfl⟩
  | map hi hpair hmap => exact ⟨d, .map hi hpair hmap, hnone rfl⟩
  | mapCount hi => exact ⟨d, .mapCount hi, hnone rfl⟩
  | sort hi hsort => exact ⟨d, .sort hi hsort, hnone rfl⟩
  | pushBack hi => simp [Worker.locks, hi] at hlocks
  | countElements hi =>
      have hbefore : d.beforeShuffle = s.beforeShuffle :=
        hreads .beforeShuffle (by rw [hi]; exact List.mem_cons_self)
      have hcount : (s.withShared d).countElements .shuffle = s.countElements .shuffle :=
        congrArg (fun vecs => (vecs.map List.length).sum) hbefore
      have hnext : Step client inputVec (s.withShared d) (.own _) _ := .countElements hi
      rw [hcount] at hnext
      exact ⟨d, hnext, hnone rfl⟩
  | resetState hi => exact ⟨d, .resetState hi, hnone rfl⟩
  | resetNext hi => exact ⟨d, .resetNext hi, hnone rfl⟩
  | @shuffle _ point amount shuffle hi hshuffle =>
      have hbefore : d.beforeShuffle = s.beforeShuffle := by
        apply hreads .beforeShuffle
        rw [hi]
        cases point with
        | key => exact List.mem_cons_self
        | scan _ _ _ => exact List.mem_cons_self
        | out => exact absurd hshuffle (Shuffle.step_out rfl)
      cases point with
      | key =>
          obtain ⟨hsame, hafter, hnext⟩ := Shuffle.key_step hshuffle d.afterShuffle
          rw [← hbefore] at hnext
          have hstep : Step client inputVec (s.withShared d) (.own i) _ := .shuffle hi hnext
          refine ⟨d, hstep, hnone ?_⟩
          simp only [shared, hsame, hafter]
          rfl
      | scan key temp index =>
          have hafter : d.afterShuffle = s.afterShuffle := by
            apply hreads .afterShuffle
            rw [hi]
            simp [Point.reads]
          have hnext : Shuffle.Step client.less
              ⟨d.beforeShuffle, d.afterShuffle, .scan key temp index⟩ amount shuffle := by
            rw [hbefore, hafter]
            exact hshuffle
          refine ⟨⟨shuffle.beforeShuffle, shuffle.afterShuffle, d.outputVec, d.count⟩,
            .shuffle hi hnext, ?_⟩
          intro object
          rw [hi]
          cases object with
          | beforeShuffle => exact Or.inl ⟨List.mem_cons_self, rfl⟩
          | afterShuffle => exact Or.inl ⟨by simp [Point.writes], rfl⟩
          | outputVec => exact Or.inr ⟨rfl, rfl⟩
          | count => exact Or.inr ⟨rfl, rfl⟩
      | out => exact absurd hshuffle (Shuffle.step_out rfl)
  | countShuffled hi =>
      have hafter : d.afterShuffle = s.afterShuffle :=
        hreads .afterShuffle (by rw [hi]; exact List.mem_cons_self)
      have hcount : (s.withShared d).countElements .reduce = s.countElements .reduce :=
        congrArg (fun vecs => (vecs.map List.length).sum) hafter
      have hnext : Step client inputVec (s.withShared d) (.own _) _ := .countShuffled hi
      rw [hcount] at hnext
      exact ⟨d, hnext, hnone rfl⟩
  | reduceLoad hi => exact ⟨d, .reduceLoad hi, hnone rfl⟩
  | reduceNext hi =>
      have hafter : (s.withShared d).afterShuffle = s.afterShuffle :=
        hreads .afterShuffle (by rw [hi]; exact List.mem_cons_self)
      have hnext : Step client inputVec (s.withShared d) (.own _) _ := .reduceNext hi
      rw [hafter] at hnext
      exact ⟨d, hnext, hnone rfl⟩
  | reduce hi hvec hreduce =>
      have hafter : (s.withShared d).afterShuffle = s.afterShuffle :=
        hreads .afterShuffle (by rw [hi]; exact List.mem_cons_self)
      exact ⟨d, .reduce hi (hafter.symm ▸ hvec) hreduce, hnone rfl⟩
  | emit3 hi hemit => simp [Worker.locks, hi, hemit] at hlocks
  | reduceCount hi hemit hvec =>
      have hafter : (s.withShared d).afterShuffle = s.afterShuffle :=
        hreads .afterShuffle (by rw [hi]; exact List.mem_cons_self)
      exact ⟨d, .reduceCount hi hemit (hafter.symm ▸ hvec), hnone rfl⟩

theorem barrier_accesses {event : BarrierEvent n} (hstep : Step client inputVec s (.barrier event) s')
    {d : Shared K V OutputPair}
    (hreads : ∀ object ∈ (s.barrier.points event.thread).accesses, d.Same s.shared object) :
    ∃ d', Step client inputVec (s.withShared d) (.barrier event) (s'.withShared d') ∧
      SameWrites (s.barrier.points event.thread).accesses s s' d d' := by
  have hcount : s.barrier.points event.thread = .locked → d.count = s.barrier.count := by
    intro hpoint
    apply hreads .count
    rw [hpoint]
    exact List.mem_cons_self
  have hsame : ∀ {barrier : Barrier n} {count' : Nat},
      ((s.barrier.points event.thread = .locked ∧ count' = barrier.count) ∨
        (count' = d.count ∧ barrier.count = s.barrier.count)) →
      ∀ {s'}, s'.shared = { s.shared with count := barrier.count } →
        SameWrites (s.barrier.points event.thread).accesses s s' d { d with count := count' } := by
    intro barrier count' hor s' hshared object
    rw [hshared]
    cases object with
    | count =>
        rcases hor with ⟨hpoint, rfl⟩ | ⟨rfl, hbarrier⟩
        · rw [hpoint]
          exact Or.inl ⟨List.mem_cons_self, rfl⟩
        · exact Or.inr ⟨rfl, hbarrier⟩
    | _ => exact Or.inr ⟨rfl, rfl⟩
  cases hstep with
  | barrier hthread hreturn hbarrier =>
      obtain ⟨count', hnext, hor⟩ := Barrier.step_count hbarrier hcount
      exact ⟨{ d with count := count' }, .barrier hthread hreturn hnext, hsame hor rfl⟩
  | barrierReturn hi hbarrier =>
      obtain ⟨count', hnext, hor⟩ := Barrier.step_count hbarrier hcount
      exact ⟨{ d with count := count' }, .barrierReturn hi hnext, hsame hor rfl⟩

theorem owned_step {event : JobEvent n} (h : s.barrier.Owned)
    (hstep : Step client inputVec s event s') : s'.barrier.Owned := by
  cases hstep with
  | barrier _ _ hbarrier => exact h.step hbarrier
  | barrierReturn _ hbarrier => exact h.step hbarrier
  | _ => exact h

theorem SameWrites.mono {writes writes' : List SharedObject} {d d' : Shared K V OutputPair}
    (h : SameWrites writes s s' d d') (hsub : writes ⊆ writes') : SameWrites writes' s s' d d' :=
  fun object => (h object).imp_left fun hwritten => ⟨hsub hwritten.1, hwritten.2⟩

end Job

/-- The worker that moves. -/
def LockedEvent.thread {n : Nat} : LockedEvent n → Fin n
  | .lock i => i
  | .read i => i
  | .unlock i => i
  | .job (.own i) => i
  | .job (.barrier event) => event.thread

namespace LockedJob

variable {n : Nat} {InputPair K V OutputPair : Type} {client : Client InputPair K V OutputPair}
  {inputVec : List InputPair} {s s' : LockedJob n InputPair K V OutputPair}

def reads (s : LockedJob n InputPair K V OutputPair) (i : Fin n) : List SharedObject :=
  (s.sections i).reads (s.job.workers i).point ++ (s.job.workers i).point.reads ++
    (s.job.barrier.points i).accesses

def writes (s : LockedJob n InputPair K V OutputPair) (i : Fin n) : List SharedObject :=
  (s.sections i).writes ++ (s.job.workers i).point.writes ++ (s.job.barrier.points i).accesses

def withShared (s : LockedJob n InputPair K V OutputPair) (d : Shared K V OutputPair) :
    LockedJob n InputPair K V OutputPair :=
  { s with job := s.job.withShared d }

/-- With other values in the objects that a worker does not read, it takes the same step. -/
theorem step_accesses {event : LockedEvent n} (hstep : Step client inputVec s event s')
    {d : Shared K V OutputPair}
    (hreads : ∀ object ∈ s.reads event.thread, d.Same s.job.shared object) :
    ∃ d', Step client inputVec (s.withShared d) event (s'.withShared d') ∧
      Job.SameWrites (s.writes event.thread) s.job s'.job d d' := by
  have hnone : s'.job.shared = s.job.shared →
      Job.SameWrites (s.writes event.thread) s.job s'.job d d :=
    fun hshared object => Or.inr ⟨d.same_self object, hshared ▸ s.job.shared.same_self object⟩
  cases hstep with
  | lockMutex hi hlocks hfree => exact ⟨d, .lockMutex hi hlocks hfree, hnone rfl⟩
  | @readBefore i hi hpoint =>
      have hbefore : (s.withShared d).job.beforeShuffle = s.job.beforeShuffle := by
        apply hreads .beforeShuffle
        change _ ∈ s.reads i
        simp [reads, hi, hpoint, Section.reads]
      have hnext : Step client inputVec (s.withShared d) (.read i) _ := .readBefore hi hpoint
      rw [hbefore] at hnext
      exact ⟨d, hnext, hnone rfl⟩
  | @readOutput i index hi hpoint =>
      have houtput : (s.withShared d).job.outputVec = s.job.outputVec := by
        apply hreads .outputVec
        change _ ∈ s.reads i
        simp [reads, hi, hpoint, Section.reads]
      have hnext : Step client inputVec (s.withShared d) (.read i) _ := .readOutput hi hpoint
      rw [houtput] at hnext
      exact ⟨d, hnext, hnone rfl⟩
  | @pushBack i vecs hi =>
      refine ⟨{ d with beforeShuffle := vecs ++ [(s.job.workers i).intermediateVec] },
        .pushBack hi, ?_⟩
      intro object
      cases object with
      | beforeShuffle =>
          left
          refine ⟨?_, rfl⟩
          change _ ∈ s.writes i
          simp [writes, hi, Section.writes]
      | _ => exact Or.inr ⟨rfl, rfl⟩
  | @emit3 i outputVec pair rest hi hemit =>
      refine ⟨{ d with outputVec := outputVec ++ [pair] }, .emit3 hi hemit, ?_⟩
      intro object
      cases object with
      | outputVec =>
          left
          refine ⟨?_, rfl⟩
          change _ ∈ s.writes i
          simp [writes, hi, Section.writes]
      | _ => exact Or.inr ⟨rfl, rfl⟩
  | unlockMutex hi => exact ⟨d, .unlockMutex hi, hnone rfl⟩
  | @own i job houtside hlocks hown =>
      obtain ⟨d', hnext, hsame⟩ := Job.own_accesses hown hlocks (d := d) fun object hobject =>
        hreads object (List.mem_append_left _ (List.mem_append_right _ hobject))
      refine ⟨d', .own houtside hlocks hnext, hsame.mono fun object hobject => ?_⟩
      exact List.mem_append_left _ (List.mem_append_right _ hobject)
  | @barrier event job houtside hbarrier =>
      obtain ⟨d', hnext, hsame⟩ := Job.barrier_accesses hbarrier (d := d) fun object hobject =>
        hreads object (List.mem_append_right _ hobject)
      refine ⟨d', .barrier houtside hnext, hsame.mono fun object hobject => ?_⟩
      exact List.mem_append_right _ hobject

/-! ### One worker at a time -/

/-- What keeps the workers apart: the mutex, the mutex of the barrier, and its rounds. -/
structure Apart (s : LockedJob n InputPair K V OutputPair) : Prop where
  exclusive : s.Exclusive
  owned : s.job.barrier.Owned
  inStep : s.job.InStep

theorem run_apart (hn : 1 ≤ n) {outputVec : List OutputPair} {events : List (LockedEvent n)}
    (hrun : Run (Meeting (Step client inputVec) NotEarly) (create n K V inputVec outputVec) events s) :
    s.Apart := by
  obtain ⟨hjob, hexclusive⟩ := run_job hn hrun
  refine ⟨hexclusive, ?_, (Job.run_inStep hn hjob).1⟩
  induction hrun with
  | start =>
      intro i hi
      rcases hi with hi | hi <;> cases hi
  | next hbefore hstep ih =>
      obtain ⟨hjob, hexclusive⟩ := run_job hn hbefore
      rcases hexclusive.job_step hstep.1 with ⟨e, -, hnext⟩ | ⟨-, hsame⟩
      · exact Job.owned_step (ih hjob hexclusive) hnext
      · rw [hsame]
        exact ih hjob hexclusive

/-- Where a worker is that reads or writes an object. -/
inductive At (s : LockedJob n InputPair K V OutputPair) (i : Fin n) : SharedObject → Prop where
  | pushing : s.sections i ≠ .outside → (s.job.workers i).point = .pushBack → At s i .beforeShuffle
  | shuffling : (s.job.workers i).point.leading = true → At s i .beforeShuffle
  | grouping : (s.job.workers i).point.leading = true → At s i .afterShuffle
  | reducing : (s.job.workers i).point.rounds = 2 → At s i .afterShuffle
  | emitting : s.sections i ≠ .outside → At s i .outputVec
  | counting : s.job.barrier.points i = .locked → At s i .count

theorem at_of_reads {i : Fin n} {object : SharedObject} (hobject : object ∈ s.reads i) :
    s.At i object := by
  rw [reads, List.mem_append, List.mem_append] at hobject
  rcases hobject with (hsection | hpoint) | hbarrier
  · obtain ⟨hplace, hor⟩ := Section.of_mem_reads hsection
    have hinside : s.sections i ≠ .outside := by rw [hplace]; nofun
    rcases hor with ⟨rfl, hpoint⟩ | rfl
    · exact .pushing hinside hpoint
    · exact .emitting hinside
  · rcases Point.of_mem_reads hpoint with ⟨rfl, hleading⟩ | ⟨rfl, hleading | hrounds⟩
    · exact .shuffling hleading
    · exact .grouping hleading
    · exact .reducing hrounds
  · obtain ⟨hlocked, rfl⟩ := BarrierPoint.of_mem_accesses hbarrier
    exact .counting hlocked

theorem at_of_writes (h : s.Exclusive) {i : Fin n} {object : SharedObject}
    (hobject : object ∈ s.writes i) :
    s.At i object ∧ (object = .afterShuffle → (s.job.workers i).point.leading = true) := by
  rw [writes, List.mem_append, List.mem_append] at hobject
  rcases hobject with (hsection | hpoint) | hbarrier
  · rcases Section.of_mem_writes hsection with ⟨vecs, hplace, rfl⟩ | ⟨outputVec, hplace, rfl⟩
    · have hinside : s.sections i ≠ .outside := by rw [hplace]; nofun
      exact ⟨.pushing hinside (h.pushing i vecs hplace).1, nofun⟩
    · have hinside : s.sections i ≠ .outside := by rw [hplace]; nofun
      exact ⟨.emitting hinside, nofun⟩
  · obtain ⟨hleading, rfl | rfl⟩ := Point.of_mem_writes hpoint
    · exact ⟨.shuffling hleading, nofun⟩
    · exact ⟨.grouping hleading, fun _ => hleading⟩
  · obtain ⟨hlocked, rfl⟩ := BarrierPoint.of_mem_accesses hbarrier
    exact ⟨.counting hlocked, nofun⟩

namespace Apart

variable (h : s.Apart) {i j : Fin n}

include h

/-- A worker that shuffles has no other one in front of the first round or behind the second. -/
theorem shuffling_alone (hi : (s.job.workers i).point.leading = true) :
    (s.job.workers j).point ≠ .pushBack ∧ (s.job.workers j).point.rounds ≠ 2 ∧
      ((s.job.workers j).point.leading = true → j = i) := by
  refine ⟨?_, ?_, ?_⟩
  · intro hpoint
    have hpushed := h.inStep.all_pushed (Point.rounds_of_leading hi) j
    rw [hpoint] at hpushed
    cases hpushed
  · intro hrounds
    rcases h.inStep.all_behind hrounds.ge i with hpoint | ⟨point, hpoint⟩
    all_goals
      rw [hpoint] at hi
      cases hi
  · intro hj
    exact Fin.ext ((h.inStep.leader j hj).trans (h.inStep.leader i hi).symm)

/-- Two workers are at an object together only if they read groups. -/
theorem eq_of_at {object : SharedObject} (hi : s.At i object) (hj : s.At j object)
    (hwrite : object = .afterShuffle → (s.job.workers i).point.leading = true) : j = i := by
  cases hi with
  | pushing hinside hpoint =>
      cases hj with
      | pushing hinside' _ => exact by_contra fun hne => hinside' (h.exclusive.alone hinside hne)
      | shuffling hleading => exact absurd hpoint (h.shuffling_alone hleading).1
  | shuffling hleading =>
      cases hj with
      | pushing _ hpoint => exact absurd hpoint (h.shuffling_alone hleading).1
      | shuffling hleading' => exact (h.shuffling_alone hleading).2.2 hleading'
  | grouping hleading =>
      cases hj with
      | grouping hleading' => exact (h.shuffling_alone hleading).2.2 hleading'
      | reducing hrounds => exact absurd hrounds (h.shuffling_alone hleading).2.1
  | reducing hrounds => exact absurd hrounds (h.shuffling_alone (hwrite rfl)).2.1
  | emitting hinside =>
      cases hj with
      | emitting hinside' => exact by_contra fun hne => hinside' (h.exclusive.alone hinside hne)
  | counting hlocked =>
      cases hj with
      | counting hlocked' =>
          have hmutex := h.owned j (Or.inl hlocked')
          rw [h.owned i (Or.inl hlocked)] at hmutex
          exact (Option.some.inj hmutex).symm

end Apart

/-- **No data races.** While a worker is about to write one of the shared objects, no other worker is
about to read or to write it. And `reads` and `writes` leave nothing out: whatever is put into the
objects that a worker does not read, it takes the same step, which changes the objects that it writes
in the same way and leaves the others as they are. -/
theorem race_free (hn : 1 ≤ n) (client : Client InputPair K V OutputPair)
    (inputVec : List InputPair) (outputVec : List OutputPair) {events : List (LockedEvent n)}
    {s : LockedJob n InputPair K V OutputPair}
    (hrun : Run (Meeting (Step client inputVec) NotEarly) (create n K V inputVec outputVec) events s) :
    (∀ i j object, i ≠ j → object ∈ s.writes i → object ∉ s.reads j ∧ object ∉ s.writes j) ∧
    ∀ event s' d, Step client inputVec s event s' →
      (∀ object ∈ s.reads event.thread, d.Same s.job.shared object) →
      ∃ d', Step client inputVec (s.withShared d) event (s'.withShared d') ∧
        ∀ object, (object ∈ s.writes event.thread ∧ d'.Same s'.job.shared object) ∨
          (d'.Same d object ∧ s'.job.shared.Same s.job.shared object) := by
  have h := run_apart hn hrun
  constructor
  · intro i j object hne hwrite
    obtain ⟨hi, hleading⟩ := at_of_writes h.exclusive hwrite
    constructor
    · exact fun hread => hne (h.eq_of_at hi (at_of_reads hread) hleading).symm
    · exact fun hwrite' => hne (h.eq_of_at hi (at_of_writes h.exclusive hwrite').1 hleading).symm
  · exact fun event s' d hstep hreads => step_accesses hstep hreads

/-- Of two workers one is about to push its vector. -/
theorem race_free_push :
    ∃ s : LockedJob 2 Nat Nat Nat Nat, Run (Meeting (Step echoClient []) NotEarly)
        (create 2 Nat Nat [] []) [.job (.own 0), .job (.own 0), .lock 0, .read 0] s ∧
      .beforeShuffle ∈ s.writes 0 ∧ .beforeShuffle ∉ s.reads 1 ∧ .beforeShuffle ∉ s.writes 1 := by
  have hrun : Run (Meeting (Step echoClient []) NotEarly) (create 2 Nat Nat [] [])
      [.job (.own 0), .job (.own 0), .lock 0, .read 0] _ :=
    (((Run.start.next ⟨.own rfl rfl (.mapLoad rfl), nofun⟩).next
      ⟨.own rfl rfl (.sort rfl ⟨.refl _, fun _ => List.Pairwise.nil⟩), nofun⟩).next
      ⟨.lockMutex rfl rfl rfl, nofun⟩).next ⟨.readBefore rfl rfl, nofun⟩
  have hapart := (race_free (by decide) _ _ _ hrun).1 0 1 .beforeShuffle (by decide)
  refine ⟨_, hrun, ?_, hapart ?_⟩
  · exact List.mem_cons_self
  · exact List.mem_cons_self

end LockedJob

end OsExercises.MapReduce
