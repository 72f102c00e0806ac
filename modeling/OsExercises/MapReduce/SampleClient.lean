import OsExercises.MapReduce.CounterClient
import OsExercises.MapReduce.Snapshot
import OsExercises.MapReduce.Waiting

/-!
# The sample client

`main` of `SampleClient.cpp`: it starts a job that counts characters, polls `getJobState` until the job
is in its last stage with 100 percent, closes the job and prints what the job has put into `outputVec`.
It runs beside the workers. No other thread calls `getJobState` or waits for the job, so a call of
`getJobState` is the load of the word, and `waitForJob` finds `thread_join` unset and joins the workers
one after the other.
-/

namespace OsExercises.MapReduce

open Job

/-- The condition under which `main` leaves its loop. -/
def JobState.finished (state : JobState) : Bool :=
  state.stage = .reduce && state.percentage = some 100

/-- The condition under which `main` prints a state. A percentage that is not a number is not equal to
any. -/
def JobState.differs (lastState state : JobState) : Bool :=
  lastState.stage ≠ state.stage || lastState.percentage = none ||
    lastState.percentage ≠ state.percentage

inductive MainPoint where
  | polling
  | joining (i : Nat)
  | printing (k : Nat)
  | returned
deriving DecidableEq

/-- `main` and its job. `reports` are the states that it has printed, `printed` the characters. -/
structure SampleClient (n : Nat) where
  job : Job n (List Int8) Int8 Int32 (Int8 × Int32)
  lastState : JobState
  point : MainPoint
  reports : List JobState
  printed : List (Int8 × Int32)

inductive MainEvent (n : Nat) where
  | worker (event : JobEvent n)
  | poll
  | join
  | close
  | print
  | leave

namespace SampleClient

variable {n : Nat}

def create (n : Nat) (inputVec : List (List Int8)) : SampleClient n where
  job := Job.create n Int8 Int32 inputVec []
  lastState := ⟨.undefined, some 0⟩
  point := .polling
  reports := []
  printed := []

/-- The loop from one call of `getJobState` to the next. -/
def polled (s : SampleClient n) (state : JobState) : SampleClient n :=
  if state.finished then
    { s with point := .joining 0, reports := s.reports ++ [state] }
  else
    { s with
      lastState := state
      reports := if s.lastState.differs state then s.reports ++ [state] else s.reports }

inductive Step (inputVec : List (List Int8)) :
    SampleClient n → MainEvent n → SampleClient n → Prop where
  | worker {s : SampleClient n} {event : JobEvent n}
      {job : Job n (List Int8) Int8 Int32 (Int8 × Int32)} :
      Job.Step counterClient inputVec s.job event job →
      Step inputVec s (.worker event) { s with job := job }
  | poll {s : SampleClient n} :
      s.point = .polling → Step inputVec s .poll (s.polled (decodeWord s.job.atomicState))
  | join {s : SampleClient n} {i : Fin n} :
      s.point = .joining i → (s.job.workers i).point = .reducePhase .out →
      Step inputVec s .join { s with point := .joining (i + 1) }
  | close {s : SampleClient n} :
      s.point = .joining n → Step inputVec s .close { s with point := .printing 0 }
  | print {s : SampleClient n} {k : Nat} {pair : Int8 × Int32} :
      s.point = .printing k → s.job.outputVec[k]? = some pair →
      Step inputVec s .print { s with point := .printing (k + 1), printed := s.printed ++ [pair] }
  | leave {s : SampleClient n} {k : Nat} :
      s.point = .printing k → s.job.outputVec[k]? = none →
      Step inputVec s .leave { s with point := .returned }

/-- `pthread_cond_wait` returns after a broadcast only. -/
def NotEarly (_ : SampleClient n) (event : MainEvent n) (_ : SampleClient n) : Prop :=
  ∀ i, event ≠ .worker (.barrier (.wakeUp i))

/-! ### What `main` knows of its job -/

variable {inputVec : List (List Int8)} {s s' : SampleClient n} {event : MainEvent n}

/-- The workers that `main` has joined have returned, so when it prints the job is done. -/
structure Joined (inputVec : List (List Int8)) (s : SampleClient n) : Prop where
  job : ∃ events, Run (Meeting (Job.Step counterClient inputVec) Job.NotEarly)
    (Job.create n Int8 Int32 inputVec []) events s.job
  joining : ∀ k, s.point = .joining k →
    k ≤ n ∧ ∀ i : Fin n, i.val < k → (s.job.workers i).point = .reducePhase .out
  unprinted : s.point = .polling ∨ (∃ k, s.point = .joining k) → s.printed = []
  printing : ∀ k, s.point = .printing k → s.job.Done ∧ s.printed = s.job.outputVec.take k
  returned : s.point = .returned → s.job.Done ∧ s.printed = s.job.outputVec
  reported : s.point ≠ .polling → ∃ state, s.reports.getLast? = some state ∧ state.finished = true

theorem joined_create : (create n inputVec).Joined inputVec where
  job := ⟨[], .start⟩
  joining := nofun
  unprinted _ := rfl
  printing := nofun
  returned := nofun
  reported hpoint := absurd rfl hpoint

theorem Joined.worker (h : s.Joined inputVec) {event : JobEvent n}
    {job : Job n (List Int8) Int8 Int32 (Int8 × Int32)}
    (hstep : Meeting (Job.Step counterClient inputVec) Job.NotEarly s.job event job) :
    Joined inputVec { s with job := job } where
  job := by
    obtain ⟨events, hrun⟩ := h.job
    exact ⟨_, hrun.next hstep⟩
  joining k hpoint :=
    ⟨(h.joining k hpoint).1, fun i hi => Job.returned_step hstep.1 ((h.joining k hpoint).2 i hi)⟩
  unprinted := h.unprinted
  printing k hpoint := absurd hstep.1 (not_step_of_done (h.printing k hpoint).1 event job)
  returned hpoint := absurd hstep.1 (not_step_of_done (h.returned hpoint).1 event job)
  reported := h.reported

theorem Joined.poll (h : s.Joined inputVec) (hpoint : s.point = .polling) (state : JobState) :
    (s.polled state).Joined inputVec := by
  have hprinted := h.unprinted (Or.inl hpoint)
  unfold polled
  split
  · rename_i hfinished
    refine ⟨h.job, ?_, fun _ => hprinted, nofun, nofun, fun _ => ⟨state, by simp, hfinished⟩⟩
    rintro k ⟨⟩
    exact ⟨Nat.zero_le n, fun i hi => absurd hi (Nat.not_lt_zero _)⟩
  · exact ⟨h.job, h.joining, fun _ => hprinted, h.printing, h.returned, fun hne => absurd hpoint hne⟩

theorem Joined.join (h : s.Joined inputVec) {i : Fin n} (hpoint : s.point = .joining i)
    (hreturned : (s.job.workers i).point = .reducePhase .out) :
    Joined inputVec { s with point := .joining (i + 1) } where
  job := h.job
  joining := by
    rintro k ⟨⟩
    refine ⟨i.isLt, fun j hj => ?_⟩
    rcases Nat.lt_succ_iff_lt_or_eq.mp hj with hlt | heq
    · exact (h.joining i hpoint).2 j hlt
    · rwa [Fin.ext heq]
  unprinted _ := h.unprinted (Or.inr ⟨i, hpoint⟩)
  printing := nofun
  returned := nofun
  reported _ := h.reported (by rw [hpoint]; nofun)

/-- Behind the last join all workers have returned. -/
theorem Joined.close (h : s.Joined inputVec) (hpoint : s.point = .joining n) :
    Joined inputVec { s with point := .printing 0 } where
  job := h.job
  joining := nofun
  unprinted := by simp
  printing := by
    rintro k ⟨⟩
    exact ⟨fun i => (h.joining n hpoint).2 i i.isLt, h.unprinted (Or.inr ⟨n, hpoint⟩)⟩
  returned := nofun
  reported _ := h.reported (by rw [hpoint]; nofun)

theorem Joined.print (h : s.Joined inputVec) {k : Nat} {pair : Int8 × Int32}
    (hpoint : s.point = .printing k) (hpair : s.job.outputVec[k]? = some pair) :
    Joined inputVec { s with point := .printing (k + 1), printed := s.printed ++ [pair] } where
  job := h.job
  joining := nofun
  unprinted := by simp
  printing := by
    rintro k' ⟨⟩
    obtain ⟨hdone, hprinted⟩ := h.printing k hpoint
    refine ⟨hdone, ?_⟩
    rw [List.take_add_one, hpair, hprinted]
    rfl
  returned := nofun
  reported _ := h.reported (by rw [hpoint]; nofun)

theorem Joined.leave (h : s.Joined inputVec) {k : Nat} (hpoint : s.point = .printing k)
    (hnone : s.job.outputVec[k]? = none) : Joined inputVec { s with point := .returned } where
  job := h.job
  joining := nofun
  unprinted := by simp
  printing := nofun
  returned _ := by
    obtain ⟨hdone, hprinted⟩ := h.printing k hpoint
    rw [List.take_of_length_le (List.getElem?_eq_none_iff.mp hnone)] at hprinted
    exact ⟨hdone, hprinted⟩
  reported _ := h.reported (by rw [hpoint]; nofun)

theorem Joined.step (h : s.Joined inputVec) (hstep : Meeting (Step inputVec) NotEarly s event s') :
    s'.Joined inputVec := by
  obtain ⟨hstep, hearly⟩ := hstep
  cases hstep with
  | worker hjob => exact h.worker ⟨hjob, fun i heq => hearly i (congrArg MainEvent.worker heq)⟩
  | poll hpoint => exact h.poll hpoint _
  | join hpoint hreturned => exact h.join hpoint hreturned
  | close hpoint => exact h.close hpoint
  | print hpoint hpair => exact h.print hpoint hpair
  | leave hpoint hnone => exact h.leave hpoint hnone

/-! ### What `main` reports -/

end SampleClient

theorem Stage.ofBits_value (stage : Stage) : Stage.ofBits stage.value = stage := by
  cases stage <;> rfl

/-- The state is not before the other. -/
def JobState.NotAfter (state state' : JobState) : Prop :=
  state.stage.value < state'.stage.value ∨ state.stage = state'.stage ∧
    ∀ p q, state.percentage = some p → state'.percentage = some q → p ≤ q

section Reports

variable {n : Nat} {InputPair K V OutputPair : Type} {client : Client InputPair K V OutputPair}
  {inputVec : List InputPair} {outputVec : List OutputPair} {s s' : Job n InputPair K V OutputPair}
  {first : Fin n} {count : Nat}

theorem decodeWord_eq (h : JobInv client inputVec outputVec first s count)
    (hsize : inputVec.length < 2 ^ 31) (hfew : s.intermediatePairs.length < 2 ^ 31) :
    decodeWord s.atomicState = ⟨(s.workers first).point.stage,
      if s.elements inputVec (s.workers first).point.stage = 0 then none
      else some (count / s.elements inputVec (s.workers first).point.stage * 100)⟩ := by
  have hdecodes := h.decodes hsize hfew
  rw [decodeWord, percentage, hdecodes.stageBits, hdecodes.totalBits, hdecodes.countBits,
    Stage.ofBits_value]

/-- The word never goes back, so what it decodes to does not either. -/
theorem decodeWord_notAfter (h : JobInv client inputVec outputVec first s count)
    (hfirst : first.val = 0) (hworkers : n < 2 ^ 31) (hsize : inputVec.length < 2 ^ 31)
    {events : List (JobEvent n)}
    (hrun : Run (Meeting (Job.Step client inputVec) Job.NotEarly) s events s')
    (hfew : s'.intermediatePairs.length < 2 ^ 31) :
    (decodeWord s.atomicState).NotAfter (decodeWord s'.atomicState) := by
  obtain ⟨count', h', hlater, hpairs⟩ := h.run hfirst hworkers hsize hrun hfew
  rw [decodeWord_eq h hsize ((few_of_run hrun).trans_lt hfew), decodeWord_eq h' hsize hfew]
  rcases hlater with hlt | ⟨hstage, hle⟩
  · exact Or.inl hlt
  · right
    refine ⟨hstage, ?_⟩
    have helements : s'.elements inputVec (s'.workers first).point.stage =
        s.elements inputVec (s.workers first).point.stage := by
      rw [← hstage]
      by_cases hmap : (s.workers first).point.stage = .map
      · rw [hmap]
        rfl
      · rw [elements_of_ne_map hmap, elements_of_ne_map hmap, hpairs (Point.map_lt_stage hmap)]
    rw [helements]
    intro p q hp hq
    split at hp
    · cases hp
    · rename_i hne
      rw [if_neg hne] at hq
      obtain rfl := Option.some.inj hp
      obtain rfl := Option.some.inj hq
      gcongr

end Reports

namespace SampleClient

variable {n : Nat} {inputVec : List (List Int8)} {s s' : SampleClient n} {event : MainEvent n}

theorem eq_of_finished {state : JobState} (hfinished : state.finished = true) :
    state = ⟨.reduce, some 100⟩ := by
  obtain ⟨stage, percentage⟩ := state
  simpa [JobState.finished] using hfinished

/-- The reports are states that the job had, one after the other. -/
structure Reported (inputVec : List (List Int8)) (s : SampleClient n) : Prop where
  observed : ∀ state ∈ s.reports, ∃ events middle rest,
    Run (Meeting (Job.Step counterClient inputVec) Job.NotEarly)
      (Job.create n Int8 Int32 inputVec []) events middle ∧
    Run (Meeting (Job.Step counterClient inputVec) Job.NotEarly) middle rest s.job ∧
    state = decodeWord middle.atomicState
  ordered : s.reports.Pairwise JobState.NotAfter

theorem Reported.worker (h : s.Reported inputVec) {event : JobEvent n}
    {job : Job n (List Int8) Int8 Int32 (Int8 × Int32)}
    (hstep : Meeting (Job.Step counterClient inputVec) Job.NotEarly s.job event job) :
    Reported inputVec { s with job := job } where
  observed state hstate := by
    obtain ⟨events, middle, rest, hbefore, hrest, heq⟩ := h.observed state hstate
    exact ⟨events, middle, _, hbefore, hrest.next hstep, heq⟩
  ordered := h.ordered

theorem polled_reports (s : SampleClient n) (state : JobState) :
    (s.polled state).reports = s.reports ∨ (s.polled state).reports = s.reports ++ [state] := by
  unfold polled
  split
  · exact Or.inr rfl
  · by_cases hdiffers : s.lastState.differs state = true
    · exact Or.inr (if_pos hdiffers)
    · exact Or.inl (if_neg hdiffers)

theorem polled_job (s : SampleClient n) (state : JobState) : (s.polled state).job = s.job := by
  unfold polled
  split <;> rfl

section

variable (hn : 1 ≤ n) (hworkers : n < 2 ^ 31) (hsize : inputVec.length < 2 ^ 23)
include hn hworkers hsize

/-- What is known of the job in a run of `main`. -/
theorem exists_jobInv {events : List (JobEvent n)}
    {job : Job n (List Int8) Int8 Int32 (Int8 × Int32)}
    (hrun : Run (Meeting (Job.Step counterClient inputVec) Job.NotEarly)
      (Job.create n Int8 Int32 inputVec []) events job) :
    job.intermediatePairs.length < 2 ^ 31 ∧
      ∃ count, JobInv counterClient inputVec [] ⟨0, hn⟩ job count := by
  have horder := CounterClient.isStrictWeakOrder
  have hpairs : inputVec.length * 256 < 2 ^ 31 := by omega
  have hsize' : inputVec.length < 2 ^ 31 := hsize.trans (by decide)
  have hfirst : (⟨0, hn⟩ : Fin n).val = 0 := rfl
  obtain ⟨⟨hinv, -, hle⟩, -⟩ :=
    bound_of_run hfirst (CounterClient.answers inputVec) hworkers hsize' hpairs hrun
  exact ⟨hle.trans_lt hpairs, hinv⟩

theorem Reported.poll (h : s.Reported inputVec) (hjoined : s.Joined inputVec) :
    (s.polled (decodeWord s.job.atomicState)).Reported inputVec := by
  obtain ⟨events, hrun⟩ := hjoined.job
  have hfew := (exists_jobInv hn hworkers hsize hrun).1
  have hlast : ∀ state ∈ s.reports, state.NotAfter (decodeWord s.job.atomicState) := by
    intro state hstate
    obtain ⟨before, middle, rest, hbefore, hrest, rfl⟩ := h.observed state hstate
    obtain ⟨-, count, hinv⟩ := exists_jobInv hn hworkers hsize hbefore
    exact decodeWord_notAfter hinv rfl hworkers (hsize.trans (by decide)) hrest hfew
  constructor
  · rw [polled_job]
    rcases polled_reports s (decodeWord s.job.atomicState) with heq | heq
    · rw [heq]
      exact h.observed
    · rw [heq]
      intro state hstate
      rcases List.mem_append.mp hstate with hmem | hmem
      · exact h.observed state hmem
      · obtain rfl := List.mem_singleton.mp hmem
        exact ⟨events, s.job, [], hrun, .start, rfl⟩
  · rcases polled_reports s (decodeWord s.job.atomicState) with heq | heq
    · rw [heq]
      exact h.ordered
    · rw [heq, List.pairwise_append]
      refine ⟨h.ordered, List.pairwise_singleton _ _, ?_⟩
      intro state hstate state' hstate'
      rw [List.mem_singleton.mp hstate']
      exact hlast state hstate

theorem Reported.step (h : s.Reported inputVec) (hjoined : s.Joined inputVec)
    (hstep : Meeting (Step inputVec) NotEarly s event s') : s'.Reported inputVec := by
  obtain ⟨hstep, hearly⟩ := hstep
  cases hstep with
  | worker hjob => exact h.worker ⟨hjob, fun i heq => hearly i (congrArg MainEvent.worker heq)⟩
  | poll _ => exact h.poll hn hworkers hsize hjoined
  | join _ _ | close _ | print _ _ | leave _ _ => exact ⟨h.observed, h.ordered⟩

theorem of_run {events : List (MainEvent n)}
    (hrun : Run (Meeting (Step inputVec) NotEarly) (create n inputVec) events s) :
    s.Joined inputVec ∧ s.Reported inputVec := by
  apply hrun.invariant ⟨joined_create, nofun, List.Pairwise.nil⟩
  intro s event s' h hstep
  exact ⟨h.1.step hstep, h.2.step hn hworkers hsize h.1 hstep⟩

end

/-! ### When `main` returns -/

theorem run_workers {events : List (JobEvent n)}
    {job : Job n (List Int8) Int8 Int32 (Int8 × Int32)}
    (hrun : Run (Meeting (Job.Step counterClient inputVec) Job.NotEarly) s.job events job) :
    Run (Meeting (Step inputVec) NotEarly) s (events.map .worker) { s with job := job } := by
  induction hrun with
  | start => exact .start
  | next _ hstep ih =>
      rw [List.map_append]
      exact ih.next ⟨.worker hstep.1, fun i heq => hstep.2 i (MainEvent.worker.inj heq)⟩

theorem exists_run_printing {k : Nat} (hpoint : s.point = .printing k) :
    ∃ events s', Run (Meeting (Step inputVec) NotEarly) s events s' ∧ s'.point = .returned := by
  induction hleft : s.job.outputVec.length - k generalizing s k with
  | zero =>
      have hnone : s.job.outputVec[k]? = none := List.getElem?_eq_none_iff.mpr (by omega)
      exact ⟨_, _, Run.start.next ⟨.leave hpoint hnone, nofun⟩, rfl⟩
  | succ left ih =>
      have hlt : k < s.job.outputVec.length := by omega
      have hpair := List.getElem?_eq_getElem hlt
      obtain ⟨events, s', hrun, hreturned⟩ := ih (k := k + 1)
        (s := { s with point := .printing (k + 1), printed := s.printed ++ [s.job.outputVec[k]] })
        rfl (by simp only; omega)
      exact ⟨_, s', (Run.start.next ⟨.print hpoint hpair, nofun⟩).append hrun, hreturned⟩

theorem exists_run_joining {k : Nat} (hpoint : s.point = .joining k) (hk : k ≤ n)
    (hdone : s.job.Done) :
    ∃ events s', Run (Meeting (Step inputVec) NotEarly) s events s' ∧ s'.point = .returned := by
  induction hleft : n - k generalizing s k with
  | zero =>
      obtain rfl : k = n := by omega
      obtain ⟨events, s', hrun, hreturned⟩ := exists_run_printing
        (s := { s with point := .printing 0 }) rfl
      exact ⟨_, s', (Run.start.next ⟨.close hpoint, nofun⟩).append hrun, hreturned⟩
  | succ left ih =>
      have hlt : k < n := by omega
      obtain ⟨events, s', hrun, hreturned⟩ := ih (s := { s with point := .joining (k + 1) })
        rfl hlt hdone (by omega)
      have hjoin : Meeting (Step inputVec) NotEarly s .join { s with point := .joining (k + 1) } :=
        ⟨.join (i := ⟨k, hlt⟩) hpoint (hdone _), nofun⟩
      exact ⟨_, s', (Run.start.next hjoin).append hrun, hreturned⟩

section

variable (hn : 1 ≤ n) (hworkers : n < 2 ^ 31) (hsize : inputVec.length < 2 ^ 23)
include hn hworkers hsize

/-- When a job with pairs is done, the next poll ends the loop. -/
theorem finished_of_done {events : List (JobEvent n)}
    {job : Job n (List Int8) Int8 Int32 (Int8 × Int32)}
    (hrun : Run (Meeting (Job.Step counterClient inputVec) Job.NotEarly)
      (Job.create n Int8 Int32 inputVec []) events job)
    (hpairs : job.intermediatePairs ≠ []) (hdone : job.Done) :
    (decodeWord job.atomicState).finished = true := by
  obtain ⟨hfew, count, hinv⟩ := exists_jobInv hn hworkers hsize hrun
  have hcount := hinv.count_of_done hdone
  have hstage : (job.workers ⟨0, hn⟩).point.stage = .reduce := by
    rw [hdone]
    rfl
  have hne : (job.intermediatePairs.length : Rat) ≠ 0 := by
    rw [Nat.cast_ne_zero]
    exact fun hzero => hpairs (List.eq_nil_of_length_eq_zero hzero)
  rw [decodeWord_eq hinv (hsize.trans (by decide)) hfew, hstage, elements_of_ne_map (by decide),
    hcount, if_neg (by exact_mod_cast hne), div_self hne, one_mul]
  rfl

/-- A pair was emitted for a character. -/
theorem flatten_ne_nil {events : List (JobEvent n)}
    {job : Job n (List Int8) Int8 Int32 (Int8 × Int32)}
    (hrun : Run (Meeting (Job.Step counterClient inputVec) Job.NotEarly)
      (Job.create n Int8 Int32 inputVec []) events job)
    (hpairs : job.intermediatePairs ≠ []) : inputVec.flatten ≠ [] := by
  obtain ⟨-, count, hinv⟩ := exists_jobInv hn hworkers hsize hrun
  obtain ⟨⟨c, k⟩, hmem⟩ := List.exists_mem_of_ne_nil _ hpairs
  obtain ⟨call, hcall, hemitted⟩ := List.mem_flatMap.mp hmem
  obtain ⟨hargument, hmap⟩ := hinv.books.mapCalls call hcall
  rw [show call.emitted = CounterClient.map call.argument from hmap] at hemitted
  obtain ⟨rfl, hne⟩ := CounterClient.mem_map_iff.mp hemitted
  have hc : c ∈ call.argument := by
    apply List.count_pos_iff.mp
    apply Nat.pos_of_ne_zero
    intro hzero
    rw [hzero] at hne
    exact hne rfl
  exact List.ne_nil_of_mem (List.mem_flatten_of_mem (List.mem_of_getElem? hargument) hc)

/-- When the workers have returned, `main` can go on until it has returned too. -/
theorem exists_run_returned (hjoined : s.Joined inputVec) (hfew : inputVec.flatten.length < 2 ^ 31)
    (hne : inputVec.flatten ≠ []) (hdone : s.job.Done) :
    ∃ events s', Run (Meeting (Step inputVec) NotEarly) s events s' ∧ s'.point = .returned := by
  cases hpoint : s.point with
  | returned => exact ⟨[], s, .start, hpoint⟩
  | printing k => exact exists_run_printing hpoint
  | joining k => exact exists_run_joining hpoint (hjoined.joining k hpoint).1 hdone
  | polling =>
      obtain ⟨events, hjob⟩ := hjoined.job
      obtain ⟨-, count, hinv⟩ := exists_jobInv hn hworkers hsize hjob
      obtain ⟨c, hc⟩ := List.exists_mem_of_ne_nil _ hne
      obtain ⟨k, hk⟩ := (CounterClient.exists_mem_flatMap_iff hfew c).mpr hc
      have hpairs : s.job.intermediatePairs ≠ [] := List.ne_nil_of_mem
        ((CounterClient.intermediatePairs_perm hinv hdone).mem_iff.mpr hk)
      have hfinished := finished_of_done hn hworkers hsize hjob hpairs hdone
      have hpolled : (s.polled (decodeWord s.job.atomicState)).point = .joining 0 := by
        rw [polled, if_pos hfinished]
      obtain ⟨rest, s', hrun, hreturned⟩ := exists_run_joining hpolled
        (Nat.zero_le n) (by rwa [polled_job])
      exact ⟨_, s', (Run.start.next ⟨.poll hpoint, nofun⟩).append hrun, hreturned⟩

theorem exists_returned_of_run (hfew : inputVec.flatten.length < 2 ^ 31)
    (hne : inputVec.flatten ≠ []) {events : List (MainEvent n)}
    (hrun : Run (Meeting (Step inputVec) NotEarly) (create n inputVec) events s) :
    ∃ rest s', Run (Meeting (Step inputVec) NotEarly) s rest s' ∧ s'.point = .returned := by
  have horder := CounterClient.isStrictWeakOrder
  have hfirst : (⟨0, hn⟩ : Fin n).val = 0 := rfl
  obtain ⟨hjoined, -⟩ := of_run hn hworkers hsize hrun
  obtain ⟨events', hjob⟩ := hjoined.job
  obtain ⟨more, job, hmore, hdone⟩ := exists_done_of_run hfirst
    (CounterClient.answers inputVec) hworkers (hsize.trans (by decide)) (by omega) hjob
  have hrest := run_workers hmore
  obtain ⟨hjoined', -⟩ := of_run hn hworkers hsize (hrun.append hrest)
  obtain ⟨rest, s', hlast, hreturned⟩ :=
    exists_run_returned hn hworkers hsize hjoined' hfew hne hdone
  exact ⟨_, s', hrest.append hlast, hreturned⟩

/-- The job that `main` has seen at its end had a percentage there, so it had pairs. -/
theorem flatten_ne_nil_of_left {events : List (MainEvent n)}
    (hrun : Run (Meeting (Step inputVec) NotEarly) (create n inputVec) events s)
    (hpoint : s.point ≠ .polling) : inputVec.flatten ≠ [] := by
  obtain ⟨hjoined, hreported⟩ := of_run hn hworkers hsize hrun
  obtain ⟨state, hlast, hfinished⟩ := hjoined.reported hpoint
  obtain ⟨before, middle, after, hbefore, -, rfl⟩ :=
    hreported.observed state (List.mem_of_getLast? hlast)
  apply flatten_ne_nil hn hworkers hsize hbefore
  intro hnil
  obtain ⟨hmiddle, count, hinv⟩ := exists_jobInv hn hworkers hsize hbefore
  have heq := eq_of_finished hfinished
  rw [decodeWord_eq hinv (hsize.trans (by decide)) hmiddle, JobState.mk.injEq] at heq
  obtain ⟨hstage, hpercentage⟩ := heq
  rw [hstage, elements_of_ne_map (by decide), hnil] at hpercentage
  cases hpercentage

/-- **`main` returns.** Wherever a run of `main` and the workers stands, it can be carried on until
`main` has returned, exactly when there is a character to count. Without one `main` never leaves its
loop. -/
theorem main_returns_iff (hfew : inputVec.flatten.length < 2 ^ 31) {events : List (MainEvent n)}
    (hrun : Run (Meeting (Step inputVec) NotEarly) (create n inputVec) events s) :
    ((∃ rest s', Run (Meeting (Step inputVec) NotEarly) s rest s' ∧ s'.point = .returned) ↔
      inputVec.flatten ≠ []) ∧
    (inputVec.flatten = [] → s.point = .polling) := by
  refine ⟨⟨?_, fun hne => exists_returned_of_run hn hworkers hsize hfew hne hrun⟩, fun hnil => ?_⟩
  · rintro ⟨rest, s', hrest, hpoint⟩
    exact flatten_ne_nil_of_left hn hworkers hsize (hrun.append hrest) (by rw [hpoint]; nofun)
  · by_contra hpoint
    exact flatten_ne_nil_of_left hn hworkers hsize hrun hpoint hnil

end

/-- The strings "ab" and "a", and an empty string, whose job is not at its end after one poll. -/
theorem main_returns_aba : (∃ rest, ∃ s : SampleClient 2,
    Run (Meeting (Step [[97, 98], [97]]) NotEarly) (create 2 [[97, 98], [97]]) rest s ∧
      s.point = .returned) ∧
    ∃ s : SampleClient 1, Run (Meeting (Step [[]]) NotEarly) (create 1 [[]]) [.poll] s ∧
      s.point = .polling := by
  refine ⟨?_, ?_⟩
  · exact (main_returns_iff (by decide) (by decide) (by decide) (by decide) .start).1.mpr
      (by decide)
  · have hpoll : Run (Meeting (Step [[]]) NotEarly) (create 1 [[]]) [.poll] _ :=
      Run.start.next ⟨.poll rfl, nofun⟩
    exact ⟨_, hpoll,
      (main_returns_iff (by decide) (by decide) (by decide) (by decide) hpoll).2 rfl⟩

/-- **The sample client.** The states that `main` prints never go back, and the last one is the end of
the job. It prints no character before all workers have returned, and in the end it has printed every
character of the strings once, with the number of its occurrences. -/
theorem sampleClient_prints (hn : 1 ≤ n) (hworkers : n < 2 ^ 31) (hsize : inputVec.length < 2 ^ 23)
    (hfew : inputVec.flatten.length < 2 ^ 31) {events : List (MainEvent n)}
    (hrun : Run (Meeting (Step inputVec) NotEarly) (create n inputVec) events s) :
    s.reports.Pairwise JobState.NotAfter ∧
    (s.point ≠ .polling → s.reports.getLast? = some ⟨.reduce, some 100⟩) ∧
    (s.point = .polling ∨ (∃ k, s.point = .joining k) → s.printed = []) ∧
    (∀ k, s.point = .printing k → s.job.Done ∧ s.printed = s.job.outputVec.take k) ∧
    (s.point = .returned → s.printed.Perm (occurrences inputVec)) := by
  obtain ⟨hjoined, hreported⟩ := of_run hn hworkers hsize hrun
  refine ⟨hreported.ordered, ?_, hjoined.unprinted, hjoined.printing, ?_⟩
  · intro hpoint
    obtain ⟨state, hlast, hfinished⟩ := hjoined.reported hpoint
    rw [hlast, eq_of_finished hfinished]
  · intro hpoint
    obtain ⟨hdone, hprinted⟩ := hjoined.returned hpoint
    obtain ⟨events, hjob⟩ := hjoined.job
    obtain ⟨-, count, hinv⟩ := exists_jobInv hn hworkers hsize hjob
    obtain ⟨grown, hgrown, hperm⟩ := hinv.outputs hdone
    rw [hprinted, hgrown, List.nil_append]
    exact hperm.trans (CounterClient.outputPairs_perm hinv rfl hfew hdone)

/-- Two workers and the strings "ab" and "a". -/
theorem sampleClient_prints_aba : ∃ events, ∃ s : SampleClient 2,
    Run (Meeting (Step [[97, 98], [97]]) NotEarly) (create 2 [[97, 98], [97]]) events s ∧
      s.reports.getLast? = some ⟨.reduce, some 100⟩ ∧ s.printed.Perm [(98, 1), (97, 2)] := by
  have hstart : Run (Meeting (Step [[97, 98], [97]]) NotEarly) (create 2 [[97, 98], [97]]) []
      (create 2 [[97, 98], [97]]) := .start
  obtain ⟨rest, s, hrest, hreturned⟩ := exists_returned_of_run (by decide) (by decide) (by decide)
    (by decide) (by decide) hstart
  obtain ⟨-, hreport, -, -, hprinted⟩ :=
    sampleClient_prints (by decide) (by decide) (by decide) (by decide) hrest
  exact ⟨rest, s, hrest, hreport (by rw [hreturned]; nofun), hprinted hreturned⟩

end SampleClient

end OsExercises.MapReduce
