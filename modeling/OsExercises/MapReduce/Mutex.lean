import OsExercises.MapReduce.Phases

/-!
# The mutex of a job

`sort_phase` and `emit3` push into a vector that all workers share, between `lock_mutex` and
`unlock_mutex`. Here the two calls are steps of their own, and a `push_back` takes two: it reads the
vector, and later it writes the vector that it has read with the element behind it, whatever has
happened in between. Nothing happens in between, so the workers do what they do in a job whose
critical sections are single steps.

The same holds of the other objects that the workers share and that are not atomic: no worker writes
one while another worker is about to read or write it.
-/

namespace OsExercises.MapReduce

open Function (update)

/-- Where a worker is in a critical section: outside of it, behind `lock_mutex`, in the middle of
`push_back` with the vector that it has read, and in front of `unlock_mutex`. -/
inductive Section (K V OutputPair : Type) where
  | outside
  | locked
  | pushing (beforeShuffle : List (IntermediateVec K V))
  | emitting (outputVec : List OutputPair)
  | unlocking

structure LockedJob (n : Nat) (InputPair K V OutputPair : Type) where
  job : Job n InputPair K V OutputPair
  mutex : Option (Fin n)
  sections : Fin n → Section K V OutputPair

inductive LockedEvent (n : Nat) where
  | lock (i : Fin n)
  | read (i : Fin n)
  | unlock (i : Fin n)
  | job (event : JobEvent n)

/-- What the event is in a job whose critical sections are single steps. -/
def LockedEvent.job? {n : Nat} : LockedEvent n → Option (JobEvent n)
  | .job event => some event
  | _ => none

/-- The worker is in front of `lock_mutex` of `sort_phase` or of `emit3`. -/
def Worker.locks {K V OutputPair : Type} (worker : Worker K V OutputPair) : Bool :=
  match worker.point, worker.toEmit with
  | .pushBack, _ => true
  | .reducePhase (.count _), _ :: _ => true
  | _, _ => false

theorem Worker.locks_count {K V OutputPair : Type} {worker : Worker K V OutputPair} {index : Nat}
    (hpoint : worker.point = .reducePhase (.count index)) :
    worker.locks = true ↔ worker.toEmit ≠ [] := by
  cases hemit : worker.toEmit <;> simp [Worker.locks, hpoint, hemit]

namespace LockedJob

variable {n : Nat} {InputPair K V OutputPair : Type}

def create (n : Nat) (K V : Type) (inputVec : List InputPair) (outputVec : List OutputPair) :
    LockedJob n InputPair K V OutputPair where
  job := Job.create n K V inputVec outputVec
  mutex := none
  sections := fun _ => .outside

def setSection (s : LockedJob n InputPair K V OutputPair) (i : Fin n)
    (place : Section K V OutputPair) : LockedJob n InputPair K V OutputPair :=
  { s with sections := update s.sections i place }

inductive Step (client : Client InputPair K V OutputPair) (inputVec : List InputPair) :
    LockedJob n InputPair K V OutputPair → LockedEvent n → LockedJob n InputPair K V OutputPair →
      Prop where
  | lockMutex {s : LockedJob n InputPair K V OutputPair} {i : Fin n} :
      s.sections i = .outside → (s.job.workers i).locks = true → s.mutex = none →
      Step client inputVec s (.lock i) { s.setSection i .locked with mutex := some i }
  | readBefore {s : LockedJob n InputPair K V OutputPair} {i : Fin n} :
      s.sections i = .locked → (s.job.workers i).point = .pushBack →
      Step client inputVec s (.read i) (s.setSection i (.pushing s.job.beforeShuffle))
  | readOutput {s : LockedJob n InputPair K V OutputPair} {i : Fin n} {index : Nat} :
      s.sections i = .locked → (s.job.workers i).point = .reducePhase (.count index) →
      Step client inputVec s (.read i) (s.setSection i (.emitting s.job.outputVec))
  | pushBack {s : LockedJob n InputPair K V OutputPair} {i : Fin n}
      {vecs : List (IntermediateVec K V)} :
      s.sections i = .pushing vecs →
      Step client inputVec s (.job (.own i))
        { s.setSection i .unlocking with
          job := { s.job.goTo i .firstBarrier with
            beforeShuffle := vecs ++ [(s.job.workers i).intermediateVec] } }
  | emit3 {s : LockedJob n InputPair K V OutputPair} {i : Fin n} {outputVec : List OutputPair}
      {pair : OutputPair} {rest : List OutputPair} :
      s.sections i = .emitting outputVec → (s.job.workers i).toEmit = pair :: rest →
      Step client inputVec s (.job (.own i))
        { s.setSection i .unlocking with
          job := { s.job.setWorker i { s.job.workers i with toEmit := rest } with
            outputVec := outputVec ++ [pair] } }
  | unlockMutex {s : LockedJob n InputPair K V OutputPair} {i : Fin n} :
      s.sections i = .unlocking →
      Step client inputVec s (.unlock i) { s.setSection i .outside with mutex := none }
  | own {s : LockedJob n InputPair K V OutputPair} {i : Fin n}
      {job : Job n InputPair K V OutputPair} :
      s.sections i = .outside → (s.job.workers i).locks = false →
      Job.Step client inputVec s.job (.own i) job →
      Step client inputVec s (.job (.own i)) { s with job := job }
  | barrier {s : LockedJob n InputPair K V OutputPair} {event : BarrierEvent n}
      {job : Job n InputPair K V OutputPair} :
      s.sections event.thread = .outside → Job.Step client inputVec s.job (.barrier event) job →
      Step client inputVec s (.job (.barrier event)) { s with job := job }

/-- `pthread_cond_wait` returns after a broadcast only. -/
def NotEarly (_ : LockedJob n InputPair K V OutputPair) (event : LockedEvent n)
    (_ : LockedJob n InputPair K V OutputPair) : Prop :=
  ∀ i, event ≠ .job (.barrier (.wakeUp i))

/-! ### Mutual exclusion -/

/-- The mutex belongs to the one worker that is in a critical section, and a vector that was read is
still the vector of the job. -/
structure Exclusive (s : LockedJob n InputPair K V OutputPair) : Prop where
  owner : ∀ i, s.mutex = some i ↔ s.sections i ≠ .outside
  locked : ∀ i, s.sections i = .locked → (s.job.workers i).locks = true
  pushing : ∀ i vecs, s.sections i = .pushing vecs →
    (s.job.workers i).point = .pushBack ∧ s.job.beforeShuffle = vecs
  emitting : ∀ i outputVec, s.sections i = .emitting outputVec →
    (∃ index, (s.job.workers i).point = .reducePhase (.count index)) ∧
      (s.job.workers i).toEmit ≠ [] ∧ s.job.outputVec = outputVec

variable {client : Client InputPair K V OutputPair} {inputVec : List InputPair}
  {outputVec : List OutputPair} {s s' : LockedJob n InputPair K V OutputPair}
  {event : LockedEvent n}

theorem exclusive_create : (create n K V inputVec outputVec).Exclusive where
  owner _ := ⟨nofun, fun hne => absurd rfl hne⟩
  locked _ hsection := nomatch hsection
  pushing _ _ hsection := nomatch hsection
  emitting _ _ hsection := nomatch hsection

/-- Outside of the critical sections `outputVec` is left alone, and `beforeShuffle` is changed by the
shuffle only. -/
theorem own_shared {job job' : Job n InputPair K V OutputPair} {i : Fin n}
    (hstep : Job.Step client inputVec job (.own i) job') (hlocks : (job.workers i).locks = false) :
    job'.outputVec = job.outputVec ∧
      (job'.beforeShuffle = job.beforeShuffle ∨ (job.workers i).point.leading = true) := by
  cases hstep with
  | pushBack hpoint => simp [Worker.locks, hpoint] at hlocks
  | emit3 hpoint hemit => simp [Worker.locks, hpoint, hemit] at hlocks
  | shuffle hpoint _ =>
      refine ⟨rfl, Or.inr ?_⟩
      rw [hpoint]
      rfl
  | _ => exact ⟨rfl, Or.inl rfl⟩

theorem own_worker {job job' : Job n InputPair K V OutputPair} {i j : Fin n}
    (hstep : Job.Step client inputVec job (.own i) job') (hne : j ≠ i) :
    job'.workers j = job.workers j := by
  obtain ⟨worker, hown⟩ := Job.own_step hstep
  rw [hown.workers, Function.update_of_ne hne]

namespace Exclusive

/-- Two workers are not in critical sections at once. -/
theorem alone (h : s.Exclusive) {i j : Fin n} (hi : s.sections i ≠ .outside) (hne : j ≠ i) :
    s.sections j = .outside := by
  by_contra hj
  have hown := (h.owner j).mpr hj
  rw [(h.owner i).mpr hi] at hown
  exact hne (Option.some.inj hown).symm

theorem owner_iff (h : s.Exclusive) {i : Fin n} (hi : s.sections i ≠ .outside) (j : Fin n) :
    s.mutex = some j ↔ j = i := by
  rw [(h.owner i).mpr hi, Option.some.injEq, eq_comm]

/-- Nobody is in a critical section when the mutex is free. -/
theorem outside_of_free (h : s.Exclusive) (hfree : s.mutex = none) (i : Fin n) :
    s.sections i = .outside := by
  by_contra hi
  have hown := (h.owner i).mpr hi
  rw [hfree] at hown
  cases hown

end Exclusive

/-- A state in which all workers but one are outside. -/
theorem exclusive_of_alone {i : Fin n} {place : Section K V OutputPair}
    (hsections : s'.sections = update s.sections i place)
    (hothers : ∀ j, j ≠ i → s.sections j = .outside)
    (howner : ∀ j, s'.mutex = some j ↔ j = i ∧ place ≠ .outside)
    (hlocked : place = .locked → (s'.job.workers i).locks = true)
    (hpushing : ∀ vecs, place = .pushing vecs →
      (s'.job.workers i).point = .pushBack ∧ s'.job.beforeShuffle = vecs)
    (hemitting : ∀ outputVec, place = .emitting outputVec →
      (∃ index, (s'.job.workers i).point = .reducePhase (.count index)) ∧
        (s'.job.workers i).toEmit ≠ [] ∧ s'.job.outputVec = outputVec) : s'.Exclusive := by
  have hself : s'.sections i = place := by rw [hsections, Function.update_self]
  have hother : ∀ j, j ≠ i → s'.sections j = .outside :=
    fun j hne => by rw [hsections, Function.update_of_ne hne, hothers j hne]
  have hsame : ∀ j, s'.sections j ≠ .outside → j = i :=
    fun j hj => by_contra fun hne => hj (hother j hne)
  constructor
  · intro j
    rw [howner j]
    constructor
    · rintro ⟨rfl, hplace⟩
      rwa [hself]
    · intro hj
      obtain rfl := hsame j hj
      exact ⟨rfl, hself ▸ hj⟩
  · intro j hj
    obtain rfl := hsame j (by rw [hj]; nofun)
    exact hlocked (hself ▸ hj)
  · intro j vecs hj
    obtain rfl := hsame j (by rw [hj]; nofun)
    exact hpushing vecs (hself ▸ hj)
  · intro j outputVec hj
    obtain rfl := hsame j (by rw [hj]; nofun)
    exact hemitting outputVec (hself ▸ hj)

/-- A step of the job that no worker in a critical section notices. -/
theorem Exclusive.aside (h : s.Exclusive) {job : Job n InputPair K V OutputPair}
    (hworkers : ∀ i, s.sections i ≠ .outside → job.workers i = s.job.workers i)
    (hbefore : ∀ i, (s.job.workers i).point = .pushBack → job.beforeShuffle = s.job.beforeShuffle)
    (houtput : job.outputVec = s.job.outputVec) : Exclusive { s with job := job } := by
  constructor
  · exact h.owner
  · intro i hi
    change (job.workers i).locks = true
    rw [hworkers i (by rw [hi]; nofun)]
    exact h.locked i hi
  · intro i vecs hi
    obtain ⟨hpoint, hvecs⟩ := h.pushing i vecs hi
    change (job.workers i).point = .pushBack ∧ job.beforeShuffle = vecs
    rw [hworkers i (by rw [hi]; nofun), hbefore i hpoint]
    exact ⟨hpoint, hvecs⟩
  · intro i outputVec hi
    change (∃ index, (job.workers i).point = .reducePhase (.count index)) ∧
      (job.workers i).toEmit ≠ [] ∧ job.outputVec = outputVec
    rw [hworkers i (by rw [hi]; nofun), houtput]
    exact h.emitting i outputVec hi

/-- The workers other than the one in the barrier. -/
theorem barrier_shared {job job' : Job n InputPair K V OutputPair} {event : BarrierEvent n}
    (hstep : Job.Step client inputVec job (.barrier event) job') :
    job'.beforeShuffle = job.beforeShuffle ∧ job'.outputVec = job.outputVec ∧
      ∀ i, i ≠ event.thread → job'.workers i = job.workers i := by
  cases hstep with
  | barrier _ _ _ => exact ⟨rfl, rfl, fun _ _ => rfl⟩
  | barrierReturn _ _ => exact ⟨rfl, rfl, fun i hne => Function.update_of_ne hne _ _⟩

/-- One step. That nobody shuffles while a worker pushes is what the first round of the barrier is
for. -/
theorem Exclusive.step (h : s.Exclusive) (hin : s.job.InStep)
    (hstep : Step client inputVec s event s') : s'.Exclusive := by
  cases hstep with
  | @lockMutex i _ hlocks hfree =>
      apply exclusive_of_alone (i := i) rfl (fun j _ => h.outside_of_free hfree j)
      · exact fun j => ⟨fun hj => ⟨(Option.some.inj hj).symm, nofun⟩, fun hj => hj.1 ▸ rfl⟩
      · exact fun _ => hlocks
      · nofun
      · nofun
  | @readBefore i hi hpoint =>
      have hinside : s.sections i ≠ .outside := by rw [hi]; nofun
      apply exclusive_of_alone (i := i) rfl (fun j hne => h.alone hinside hne)
      · exact fun j => (h.owner_iff hinside j).trans ⟨fun hj => ⟨hj, nofun⟩, And.left⟩
      · nofun
      · intro vecs hvecs
        exact ⟨hpoint, Section.pushing.inj hvecs⟩
      · nofun
  | @readOutput i index hi hpoint =>
      have hinside : s.sections i ≠ .outside := by rw [hi]; nofun
      have hemits := (Worker.locks_count hpoint).mp (h.locked i hi)
      apply exclusive_of_alone (i := i) rfl (fun j hne => h.alone hinside hne)
      · exact fun j => (h.owner_iff hinside j).trans ⟨fun hj => ⟨hj, nofun⟩, And.left⟩
      · nofun
      · nofun
      · intro outputVec houtput
        exact ⟨⟨index, hpoint⟩, hemits, Section.emitting.inj houtput⟩
  | @pushBack i vecs hi =>
      have hinside : s.sections i ≠ .outside := by rw [hi]; nofun
      apply exclusive_of_alone (i := i) rfl (fun j hne => h.alone hinside hne)
      · exact fun j => (h.owner_iff hinside j).trans ⟨fun hj => ⟨hj, nofun⟩, And.left⟩
      all_goals nofun
  | @emit3 i outputVec pair rest hi _ =>
      have hinside : s.sections i ≠ .outside := by rw [hi]; nofun
      apply exclusive_of_alone (i := i) rfl (fun j hne => h.alone hinside hne)
      · exact fun j => (h.owner_iff hinside j).trans ⟨fun hj => ⟨hj, nofun⟩, And.left⟩
      all_goals nofun
  | @unlockMutex i hi =>
      have hinside : s.sections i ≠ .outside := by rw [hi]; nofun
      apply exclusive_of_alone (i := i) rfl (fun j hne => h.alone hinside hne)
      · exact fun j => ⟨nofun, fun hj => absurd rfl hj.2⟩
      all_goals nofun
  | @own i job houtside hlocks hown =>
      obtain ⟨houtput, hbefore⟩ := own_shared hown hlocks
      apply h.aside _ _ houtput
      · intro j hj
        apply own_worker hown
        rintro rfl
        exact hj houtside
      · intro j hpoint
        refine hbefore.resolve_right fun hleading => ?_
        have hpushed := hin.all_pushed (Point.rounds_of_leading hleading) j
        rw [hpoint] at hpushed
        cases hpushed
  | @barrier event job houtside hbarrier =>
      obtain ⟨hbefore, houtput, hworkers⟩ := barrier_shared hbarrier
      apply h.aside _ (fun _ _ => hbefore) houtput
      intro j hj
      apply hworkers
      rintro rfl
      exact hj houtside

/-! ### Single steps -/

/-- A step is a step of the job, or nothing that the job notices. -/
theorem Exclusive.job_step (h : s.Exclusive) (hstep : Step client inputVec s event s') :
    (∃ e, event.job? = some e ∧ Job.Step client inputVec s.job e s'.job) ∨
      event.job? = none ∧ s'.job = s.job := by
  cases hstep with
  | lockMutex | readBefore | readOutput | unlockMutex => exact Or.inr ⟨rfl, rfl⟩
  | @pushBack i vecs hi =>
      obtain ⟨hpoint, rfl⟩ := h.pushing i vecs hi
      exact Or.inl ⟨_, rfl, .pushBack hpoint⟩
  | @emit3 i outputVec pair rest hi hemit =>
      obtain ⟨⟨index, hpoint⟩, -, rfl⟩ := h.emitting i outputVec hi
      exact Or.inl ⟨_, rfl, .emit3 hpoint hemit⟩
  | own _ _ hown => exact Or.inl ⟨_, rfl, hown⟩
  | barrier _ hbarrier => exact Or.inl ⟨_, rfl, hbarrier⟩

/-- A run is a run of the job, and the workers exclude each other in it. -/
theorem run_job (hn : 1 ≤ n) {events : List (LockedEvent n)}
    (hrun : Run (Meeting (Step client inputVec) NotEarly) (create n K V inputVec outputVec) events s) :
    Run (Meeting (Job.Step client inputVec) Job.NotEarly) (Job.create n K V inputVec outputVec)
      (events.filterMap LockedEvent.job?) s.job ∧ s.Exclusive := by
  induction hrun with
  | start => exact ⟨.start, exclusive_create⟩
  | @next events s s' event _ hstep ih =>
      obtain ⟨hjob, hexclusive⟩ := ih
      refine ⟨?_, hexclusive.step (Job.run_inStep hn hjob).1 hstep.1⟩
      rw [List.filterMap_append]
      rcases hexclusive.job_step hstep.1 with ⟨e, hevent, hnext⟩ | ⟨hevent, hsame⟩
      · have hearly : ∀ i, e ≠ .barrier (.wakeUp i) := by
          rintro i rfl
          cases event with
          | job event => exact hstep.2 i (congrArg _ (Option.some.inj hevent))
          | _ => cases hevent
        rw [List.filterMap_cons_some hevent]
        exact hjob.next ⟨hnext, hearly⟩
      · rw [List.filterMap_cons_none hevent, hsame]
        exact (List.append_nil _).symm ▸ hjob

/-! Every run of the job is one in which nobody else moves while a worker is in a critical
section. -/

/-- Nobody is in a critical section. -/
def idle (job : Job n InputPair K V OutputPair) : LockedJob n InputPair K V OutputPair :=
  ⟨job, none, fun _ => .outside⟩

/-- Only the worker is in a critical section. -/
def inside (job : Job n InputPair K V OutputPair) (i : Fin n) (place : Section K V OutputPair) :
    LockedJob n InputPair K V OutputPair :=
  ⟨job, some i, update (fun _ => .outside) i place⟩

section

variable {job job' : Job n InputPair K V OutputPair} {i : Fin n} {place : Section K V OutputPair}

theorem sections_inside : (inside job i place).sections i = place := by
  simp [inside]

theorem setSection_inside (place' : Section K V OutputPair) :
    (inside job i place).setSection i place' = inside job i place' := by
  simp only [inside, setSection, Function.update_idem]

theorem unlock_inside :
    Step client inputVec (inside job i .unlocking) (.unlock i) (idle job) := by
  have hstep : Step client inputVec (inside job i .unlocking) (.unlock i) _ :=
    .unlockMutex sections_inside
  rw [setSection_inside] at hstep
  have hidle : update (fun _ => .outside) i .outside =
      (fun _ => .outside : Fin n → Section K V OutputPair) := Function.update_eq_self i _
  simpa only [inside, idle, hidle] using hstep

/-- The four steps of a critical section. -/
theorem section_run (hlocks : (job.workers i).locks = true)
    (hread : Step client inputVec (inside job i .locked) (.read i) (inside job i place))
    (hwrite : Step client inputVec (inside job i place) (.job (.own i)) (inside job' i .unlocking)) :
    Run (Meeting (Step client inputVec) NotEarly) (idle job)
      [.lock i, .read i, .job (.own i), .unlock i] (idle job') := by
  have hlock : Step client inputVec (idle job) (.lock i) (inside job i .locked) :=
    .lockMutex rfl hlocks rfl
  exact (((Run.start.next ⟨hlock, nofun⟩).next ⟨hread, nofun⟩).next ⟨hwrite, nofun⟩).next
    ⟨unlock_inside, nofun⟩

/-- A step of the job, taken between the critical sections. -/
theorem idle_step {e : JobEvent n} (hstep : Job.Step client inputVec job e job')
    (hearly : Job.NotEarly job e job') :
    ∃ events, Run (Meeting (Step client inputVec) NotEarly) (idle job) events (idle job') ∧
      events.filterMap LockedEvent.job? = [e] := by
  cases e with
  | barrier event =>
      have hearly' : ∀ i, LockedEvent.job (.barrier event) ≠ .job (.barrier (.wakeUp i)) :=
        fun i heq => hearly i (LockedEvent.job.inj heq)
      exact ⟨_, Run.start.next ⟨.barrier rfl hstep, hearly'⟩, rfl⟩
  | own i =>
      cases hlocks : (job.workers i).locks with
      | false => exact ⟨_, Run.start.next ⟨.own rfl hlocks hstep, nofun⟩, rfl⟩
      | true =>
          refine ⟨[.lock i, .read i, .job (.own i), .unlock i], ?_, rfl⟩
          cases hstep with
          | pushBack hpoint =>
              have hread : Step client inputVec (inside job i .locked) (.read i) _ :=
                .readBefore sections_inside hpoint
              have hwrite : Step client inputVec (inside job i (.pushing job.beforeShuffle))
                  (.job (.own i)) _ := .pushBack sections_inside
              rw [setSection_inside] at hread hwrite
              exact section_run hlocks hread hwrite
          | emit3 hpoint hemit =>
              have hread : Step client inputVec (inside job i .locked) (.read i) _ :=
                .readOutput sections_inside hpoint
              have hwrite : Step client inputVec (inside job i (.emitting job.outputVec))
                  (.job (.own i)) _ := .emit3 sections_inside hemit
              rw [setSection_inside] at hread hwrite
              exact section_run hlocks hread hwrite
          | reduceCount hpoint hemit _ =>
              exact absurd hemit ((Worker.locks_count hpoint).mp hlocks)
          | mapLoad hpoint | mapNext hpoint | map hpoint _ _ | mapCount hpoint | sort hpoint _
          | countElements hpoint | resetState hpoint | resetNext hpoint | shuffle hpoint _
          | countShuffled hpoint | reduceLoad hpoint | reduceNext hpoint | reduce hpoint _ _ =>
              simp [Worker.locks, hpoint] at hlocks

end

theorem run_idle {events : List (JobEvent n)} {job : Job n InputPair K V OutputPair}
    (hrun : Run (Meeting (Job.Step client inputVec) Job.NotEarly)
      (Job.create n K V inputVec outputVec) events job) :
    ∃ lockedEvents, Run (Meeting (Step client inputVec) NotEarly)
        (create n K V inputVec outputVec) lockedEvents (idle job) ∧
      lockedEvents.filterMap LockedEvent.job? = events := by
  induction hrun with
  | start => exact ⟨[], .start, rfl⟩
  | next _ hstep ih =>
      obtain ⟨before, hbefore, hevents⟩ := ih
      obtain ⟨last, hlast, hevent⟩ := idle_step hstep.1 hstep.2
      refine ⟨before ++ last, hbefore.append hlast, ?_⟩
      rw [List.filterMap_append, hevents, hevent]

/-! ### The mutex is given back -/

/-- A worker that has read a vector writes it. -/
theorem exists_write {i : Fin n}
    (hi : (∃ vecs, s.sections i = .pushing vecs) ∨
      ∃ outputVec, s.sections i = .emitting outputVec ∧ (s.job.workers i).toEmit ≠ []) :
    ∃ s', Step client inputVec s (.job (.own i)) s' ∧ s'.sections i = .unlocking := by
  rcases hi with ⟨vecs, hi⟩ | ⟨outputVec, hi, hemits⟩
  · exact ⟨_, .pushBack hi, Function.update_self i _ _⟩
  · obtain ⟨pair, rest, hemit⟩ := List.exists_cons_of_ne_nil hemits
    exact ⟨_, .emit3 hi hemit, Function.update_self i _ _⟩

theorem exists_read {i : Fin n} (hi : s.sections i = .locked)
    (hlocks : (s.job.workers i).locks = true) :
    ∃ s', Step client inputVec s (.read i) s' ∧
      ((∃ vecs, s'.sections i = .pushing vecs) ∨
        ∃ outputVec, s'.sections i = .emitting outputVec ∧ (s'.job.workers i).toEmit ≠ []) := by
  cases hpoint : (s.job.workers i).point with
  | pushBack => exact ⟨_, .readBefore hi hpoint, Or.inl ⟨_, Function.update_self i _ _⟩⟩
  | reducePhase point =>
      cases point with
      | count index =>
          have hemits := (Worker.locks_count hpoint).mp hlocks
          exact ⟨_, .readOutput hi hpoint, Or.inr ⟨_, Function.update_self i _ _, hemits⟩⟩
      | _ => simp [Worker.locks, hpoint] at hlocks
  | _ => simp [Worker.locks, hpoint] at hlocks

/-- The worker that has the mutex gives it back, in three steps at most that need nobody else. -/
theorem Exclusive.exists_free (h : s.Exclusive) {i : Fin n} (hi : s.mutex = some i) :
    ∃ events s', Run (Meeting (Step client inputVec) NotEarly) s events s' ∧ s'.mutex = none ∧
      List.IsSuffix events [.read i, .job (.own i), .unlock i] := by
  have hunlock : ∀ {s : LockedJob n InputPair K V OutputPair}, s.sections i = .unlocking →
      ∃ s', Step client inputVec s (.unlock i) s' ∧ s'.mutex = none :=
    fun hi => ⟨_, .unlockMutex hi, rfl⟩
  have hwrite : ∀ {s : LockedJob n InputPair K V OutputPair},
      ((∃ vecs, s.sections i = .pushing vecs) ∨
        ∃ outputVec, s.sections i = .emitting outputVec ∧ (s.job.workers i).toEmit ≠ []) →
      ∃ s', Run (Meeting (Step client inputVec) NotEarly) s [.job (.own i), .unlock i] s' ∧
        s'.mutex = none := by
    intro s hread
    obtain ⟨s', hstep, hunlocking⟩ := exists_write hread
    obtain ⟨s'', hlast, hfree⟩ := hunlock hunlocking
    exact ⟨s'', (Run.start.next ⟨hstep, nofun⟩).next ⟨hlast, nofun⟩, hfree⟩
  cases hsection : s.sections i with
  | outside => exact absurd hsection ((h.owner i).mp hi)
  | locked =>
      obtain ⟨s', hstep, hread⟩ := exists_read hsection (h.locked i hsection)
      obtain ⟨s'', hrun, hfree⟩ := hwrite hread
      have hfirst : Run (Meeting (Step client inputVec) NotEarly) s [.read i] s' :=
        Run.start.next ⟨hstep, nofun⟩
      exact ⟨_, s'', hfirst.append hrun, hfree, List.suffix_refl _⟩
  | pushing vecs =>
      obtain ⟨s', hrun, hfree⟩ := hwrite (Or.inl ⟨vecs, hsection⟩)
      exact ⟨_, s', hrun, hfree, List.suffix_cons _ _⟩
  | emitting outputVec =>
      obtain ⟨-, hemits, -⟩ := h.emitting i outputVec hsection
      obtain ⟨s', hrun, hfree⟩ := hwrite (Or.inr ⟨outputVec, hsection, hemits⟩)
      exact ⟨_, s', hrun, hfree, List.suffix_cons _ _⟩
  | unlocking =>
      obtain ⟨s', hstep, hfree⟩ := hunlock hsection
      exact ⟨_, s', Run.start.next ⟨hstep, nofun⟩, hfree, ⟨[.read i, .job (.own i)], rfl⟩⟩

/-- **The mutex makes the pushes atomic.** The workers, whose `push_back`s read a shared vector and
later write it, do exactly what the workers of a job do whose `push_back`s are single steps. Two
workers are never in critical sections at once, and the one that has the mutex can give it back
without the others. -/
theorem pushes_atomic (hn : 1 ≤ n) (client : Client InputPair K V OutputPair)
    (inputVec : List InputPair) (outputVec : List OutputPair) :
    (∀ events (job : Job n InputPair K V OutputPair),
      Run (Meeting (Job.Step client inputVec) Job.NotEarly) (Job.create n K V inputVec outputVec)
          events job ↔
        ∃ lockedEvents s, Run (Meeting (Step client inputVec) NotEarly)
            (create n K V inputVec outputVec) lockedEvents s ∧
          lockedEvents.filterMap LockedEvent.job? = events ∧ s.job = job) ∧
    ∀ events s, Run (Meeting (Step client inputVec) NotEarly) (create n K V inputVec outputVec)
        events s →
      (∀ i j, s.sections i ≠ .outside → s.sections j ≠ .outside → i = j) ∧
      ∀ i, s.mutex = some i →
        ∃ events' s', Run (Meeting (Step client inputVec) NotEarly) s events' s' ∧
          s'.mutex = none ∧ List.IsSuffix events' [.read i, .job (.own i), .unlock i] := by
  constructor
  · intro events job
    constructor
    · intro hrun
      obtain ⟨lockedEvents, hlocked, hevents⟩ := run_idle hrun
      exact ⟨lockedEvents, idle job, hlocked, hevents, rfl⟩
    · rintro ⟨lockedEvents, s, hlocked, rfl, rfl⟩
      exact (run_job hn hlocked).1
  · intro events s hrun
    obtain ⟨-, hexclusive⟩ := run_job hn hrun
    refine ⟨?_, fun i hi => hexclusive.exists_free hi⟩
    intro i j hi hj
    by_contra hne
    exact hj (hexclusive.alone hi (Ne.symm hne))

/-- Of two workers without any input one is in the middle of its `push_back`. -/
theorem pushes_atomic_read :
    ∃ s : LockedJob 2 Nat Nat Nat Nat, Run (Meeting (Step echoClient []) NotEarly)
        (create 2 Nat Nat [] []) [.job (.own 0), .job (.own 0), .lock 0, .read 0] s ∧
      s.sections 0 = .pushing [] ∧
      (∀ i j, s.sections i ≠ .outside → s.sections j ≠ .outside → i = j) := by
  have hrun : Run (Meeting (Step echoClient []) NotEarly) (create 2 Nat Nat [] [])
      [.job (.own 0), .job (.own 0), .lock 0, .read 0] _ :=
    (((Run.start.next ⟨.own rfl rfl (.mapLoad rfl), nofun⟩).next
      ⟨.own rfl rfl (.sort rfl ⟨.refl _, fun _ => List.Pairwise.nil⟩), nofun⟩).next
      ⟨.lockMutex rfl rfl rfl, nofun⟩).next ⟨.readBefore rfl rfl, nofun⟩
  exact ⟨_, hrun, rfl, ((pushes_atomic (by decide) _ _ _).2 _ _ hrun).1⟩

end LockedJob

end OsExercises.MapReduce
