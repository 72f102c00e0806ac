import OsExercises.MapReduce.Job

/-!
# The phases of a job

The barrier keeps the workers in step: worker 0 shuffles behind the first round, when all vectors are
pushed, and a worker reduces behind the second round, when worker 0 has shuffled. That the barrier is
used twice does not disturb it. None of this depends on the sizes of the job, on its client or on the
order of the keys.
-/

namespace OsExercises.MapReduce

open Function (update)

/-! ### What the barrier leaves alone -/

namespace Barrier

variable {n : Nat} {b b' : Barrier n} {event : BarrierEvent n}

theorem step_points (hstep : Step b event b') {j : Fin n} (hne : j ≠ event.thread)
    (hj : b.points j = .outside) : b'.points j = .outside := by
  cases hstep with
  | @wakeAll i _ _ =>
      have hbroadcast : b.broadcast.points j = .outside := by
        rw [broadcast]
        simp [hj]
      exact (Function.update_of_ne hne _ _).trans hbroadcast
  | _ => exact (Function.update_of_ne hne _ _).trans hj

theorem step_returned (hstep : Step b event b') (hevent : event ≠ .unlock event.thread) :
    b'.returned = b.returned := by
  cases hstep with
  | unlock _ => exact absurd rfl hevent
  | _ => rfl

theorem step_unlock {i : Fin n} (hstep : Step b (.unlock i) b') :
    b'.points i = .outside ∧ b'.returned = update b.returned i (b.returned i + 1) := by
  cases hstep with
  | unlock _ => exact ⟨Function.update_self i _ _, rfl⟩

end Barrier

/-! ### Where the workers are -/

namespace Point

variable {K V : Type}

/-- How often the worker has returned from the barrier. -/
def rounds : Point K V → Nat
  | .mapPhase _ => 0
  | .pushBack => 0
  | .firstBarrier => 0
  | .reducePhase _ => 2
  | _ => 1

/-- The places of the shuffle and of the resets. -/
def leading : Point K V → Bool
  | .countElements => true
  | .resetState _ _ => true
  | .resetNext _ => true
  | .shufflePhase _ => true
  | _ => false

/-- The worker has left `map_phase` and has pushed its vector. -/
def pushed : Point K V → Bool
  | .mapPhase _ => false
  | .pushBack => false
  | _ => true

/-- What is left of the job for worker 0 here is behind the shuffle. -/
def shuffled : Point K V → Bool
  | .shufflePhase .out => true
  | .resetState stage _ => stage ≠ .shuffle
  | .resetNext stage => stage ≠ .shuffle
  | .secondBarrier => true
  | .reducePhase _ => true
  | _ => false

def finished : Point K V → Bool
  | .reducePhase .out => true
  | _ => false

theorem eq_of_finished {point : Point K V} (hpoint : point.finished = true) :
    point = .reducePhase .out := by
  cases point with
  | reducePhase inner => cases inner <;> simp_all [finished]
  | _ => cases hpoint

theorem behindReset_rounds (stage : Stage) : (Job.behindReset stage : Point K V).rounds = 1 := by
  cases stage <;> rfl

theorem pushed_of_rounds {point : Point K V} (hrounds : 1 ≤ point.rounds) : point.pushed = true := by
  cases point <;> simp_all [rounds, pushed]

theorem rounds_of_leading {point : Point K V} (hpoint : point.leading = true) :
    1 ≤ point.rounds := by
  cases point <;> simp_all [rounds, leading]

theorem rounds_of_shuffled {point : Point K V} (hpoint : point.shuffled = true) :
    1 ≤ point.rounds := by
  cases point <;> simp_all [rounds, shuffled]

theorem rounds_behindBarrier {point : Point K V} (hpoint : point.atBarrier = true) (id : Nat) :
    (point.behindBarrier id).rounds = point.rounds + 1 := by
  cases point with
  | firstBarrier =>
      by_cases hid : id = 0
      · rw [behindBarrier, if_pos hid]
        rfl
      · rw [behindBarrier, if_neg hid]
        rfl
  | secondBarrier => rfl
  | _ => cases hpoint

theorem rounds_le (point : Point K V) : point.rounds ≤ 2 := by
  cases point <;> simp [rounds]

theorem rounds_atBarrier {point : Point K V} (hpoint : point.atBarrier = true) :
    point.rounds ≤ 1 := by
  cases point <;> simp_all [rounds, atBarrier]

end Point

namespace Job

variable {n : Nat} {InputPair K V OutputPair : Type} {client : Client InputPair K V OutputPair}
  {inputVec : List InputPair} {s s' : Job n InputPair K V OutputPair}

/-- A worker that moves on its own leaves the barrier and the other workers alone, passes no barrier
and takes the lead only if it had it. -/
structure Own (s : Job n InputPair K V OutputPair) (i : Fin n) (s' : Job n InputPair K V OutputPair)
    (worker : Worker K V OutputPair) : Prop where
  barrier : s'.barrier = s.barrier
  workers : s'.workers = update s.workers i worker
  outside : (s.workers i).point.atBarrier = false
  rounds : worker.point.rounds = (s.workers i).point.rounds
  leading : worker.point.leading = true → (s.workers i).point.leading = true
  pushes : s'.beforeShuffle.length + (if (s.workers i).point.pushed then 1 else 0) =
    s.beforeShuffle.length + if worker.point.pushed then 1 else 0
  before : s'.beforeShuffle = s.beforeShuffle ∨ (s.workers i).point.pushed = false ∨
    (s.workers i).point.leading = true
  shuffled : worker.point.shuffled = true →
    ((s.workers i).point.shuffled = true ∧ s'.beforeShuffle = s.beforeShuffle) ∨
      ∀ vec ∈ s'.beforeShuffle, vec = []

/-- A move between places that are alike. -/
theorem Own.within {i : Fin n} {point : Point K V} {worker : Worker K V OutputPair}
    (hi : (s.workers i).point = point) (hbarrier : s'.barrier = s.barrier)
    (hworkers : s'.workers = update s.workers i worker) (houtside : point.atBarrier = false)
    (hrounds : worker.point.rounds = point.rounds) (hleading : worker.point.leading = point.leading)
    (hpushed : worker.point.pushed = point.pushed)
    (hshuffled : worker.point.shuffled = point.shuffled)
    (hbefore : s'.beforeShuffle = s.beforeShuffle) : Own s i s' worker := by
  subst hi
  refine ⟨hbarrier, hworkers, houtside, hrounds, ?_, ?_, Or.inl hbefore, ?_⟩
  · rw [hleading]
    exact id
  · rw [hpushed, hbefore]
  · rw [hshuffled]
    exact fun hafter => Or.inl ⟨hafter, hbefore⟩

theorem own_step {i : Fin n} (hstep : Step client inputVec s (.own i) s') :
    ∃ worker, Own s i s' worker := by
  cases hstep with
  | pushBack hi =>
      refine ⟨_, rfl, rfl, ?_, ?_, nofun, ?_, ?_, nofun⟩
      · rw [hi]; rfl
      · rw [hi]; rfl
      · rw [hi]
        exact List.length_append
      · rw [hi]
        exact Or.inr (Or.inl rfl)
  | @resetNext _ stage hi =>
      refine ⟨_, rfl, rfl, ?_, ?_, ?_, ?_, Or.inl rfl, ?_⟩
      · rw [hi]; rfl
      · rw [hi]; exact Point.behindReset_rounds stage
      · rw [hi]; exact fun _ => rfl
      · have hpushed : (behindReset stage : Point K V).pushed = true :=
          Point.pushed_of_rounds (Point.behindReset_rounds stage).ge
        rw [hi, hpushed]
        rfl
      · rw [hi]
        cases stage
        case shuffle => nofun
        all_goals exact fun _ => Or.inl ⟨rfl, rfl⟩
  | @shuffle _ point _ shuffle hi hshuffle =>
      refine ⟨_, rfl, rfl, ?_, ?_, ?_, ?_, ?_, ?_⟩
      · rw [hi]; rfl
      · rw [hi]; rfl
      · rw [hi]; exact fun _ => rfl
      · rw [hi]
        exact congrArg (· + 1) (Shuffle.length_step hshuffle)
      · rw [hi]
        exact Or.inr (Or.inr rfl)
      · intro hafter
        have hout : shuffle.point = .out := by
          cases hpoint : shuffle.point <;> simp_all [Point.shuffled]
        obtain ⟨hsame, hkey⟩ := Shuffle.out_step hshuffle hout
        right
        change ∀ vec ∈ shuffle.beforeShuffle, vec = []
        rw [hsame]
        exact maxKey_eq_none_iff.mp hkey
  | emit3 hi _ =>
      refine ⟨_, .within hi rfl rfl rfl ?_ ?_ ?_ ?_ rfl⟩
      all_goals rw [hi]
  | mapLoad hi | mapNext hi | map hi _ _ | mapCount hi | sort hi _ | countElements hi
  | resetState hi | countShuffled hi | reduceLoad hi | reduceNext hi | reduce hi _ _
  | reduceCount hi _ _ =>
      exact ⟨_, .within hi rfl rfl rfl rfl rfl rfl rfl rfl⟩

/-! ### Workers in step -/

structure InStep (s : Job n InputPair K V OutputPair) : Prop where
  round : ∃ round, s.barrier.RoundInv round
  returned : ∀ i, s.barrier.returned i = (s.workers i).point.rounds
  outside : ∀ i, (s.workers i).point.atBarrier = false → s.barrier.points i = .outside
  leader : ∀ i, (s.workers i).point.leading = true → i.val = 0
  pushes : s.beforeShuffle.length = countParties (fun worker => worker.point.pushed = true) s.workers

namespace InStep

/-- No worker is ahead of another by more than a round of the barrier. -/
theorem rounds_le (h : InStep s) (i j : Fin n) :
    (s.workers i).point.rounds ≤
      (s.workers j).point.rounds + if (s.workers j).point.atBarrier then 1 else 0 := by
  obtain ⟨round, hround⟩ := h.round
  have hle : s.barrier.returned i ≤ s.barrier.entered j :=
    (hround.returned_le i).trans (hround.le_entered j)
  rw [hround.called j, h.returned i, h.returned j] at hle
  by_cases hj : (s.workers j).point.atBarrier = true
  · have hcall : (s.barrier.points j).inCall ≤ 1 := by
      cases s.barrier.points j <;> decide
    rw [if_pos hj]
    omega
  · rw [h.outside j (Bool.eq_false_of_not_eq_true hj)] at hle
    rw [if_neg hj]
    exact hle

/-- Behind the first round. -/
theorem all_pushed (h : InStep s) {i : Fin n} (hi : 1 ≤ (s.workers i).point.rounds) (j : Fin n) :
    (s.workers j).point.pushed = true := by
  have hle := h.rounds_le i j
  generalize (s.workers j).point = point at hle
  cases point <;> simp_all [Point.rounds, Point.atBarrier, Point.pushed]

/-- Behind the second round. -/
theorem all_behind (h : InStep s) {i : Fin n} (hi : 2 ≤ (s.workers i).point.rounds) (j : Fin n) :
    (s.workers j).point = .secondBarrier ∨ ∃ point, (s.workers j).point = .reducePhase point := by
  have hle := h.rounds_le i j
  generalize (s.workers j).point = point at hle
  cases point <;> simp_all [Point.rounds, Point.atBarrier] <;> omega

theorem create (hn : 1 ≤ n) (outputVec : List OutputPair) :
    InStep (create n K V inputVec outputVec) where
  round := ⟨0, Barrier.RoundInv.new hn⟩
  returned _ := rfl
  outside _ _ := rfl
  leader _ hleading := by cases hleading
  pushes := (total_eq_zero fun _ => rfl).symm

theorem own (h : InStep s) {i : Fin n} {worker : Worker K V OutputPair} (hown : Own s i s' worker) :
    InStep s' := by
  have hself : s'.workers i = worker := by rw [hown.workers, Function.update_self]
  have hother : ∀ j, j ≠ i → s'.workers j = s.workers j :=
    fun j hne => by rw [hown.workers, Function.update_of_ne hne]
  constructor
  · rw [hown.barrier]
    exact h.round
  · intro j
    rw [hown.barrier, h.returned j]
    by_cases heq : j = i
    · rw [heq, hself, hown.rounds]
    · rw [hother j heq]
  · intro j hj
    rw [hown.barrier]
    by_cases heq : j = i
    · rw [heq]
      exact h.outside i hown.outside
    · rw [hother j heq] at hj
      exact h.outside j hj
  · intro j hj
    by_cases heq : j = i
    · rw [heq, hself] at hj
      rw [heq]
      exact h.leader i (hown.leading hj)
    · rw [hother j heq] at hj
      exact h.leader j hj
  · have hcount := countParties_update (fun worker : Worker K V OutputPair =>
      worker.point.pushed = true) s.workers i worker
    have hpushes := hown.pushes
    rw [hown.workers]
    rw [← h.pushes] at hcount
    omega

theorem barrier (h : InStep s) {event : BarrierEvent n} {barrier : Barrier n}
    (hthread : (s.workers event.thread).point.atBarrier = true)
    (hreturn : event ≠ .unlock event.thread) (hevent : ∀ i, event ≠ .wakeUp i)
    (hstep : s.barrier.Step event barrier) : InStep { s with barrier := barrier } := by
  obtain ⟨round, hround⟩ := h.round
  constructor
  · exact hround.step hstep hevent
  · intro j
    exact (congrFun (Barrier.step_returned hstep hreturn) j).trans (h.returned j)
  · intro j hj
    apply Barrier.step_points hstep _ (h.outside j hj)
    rintro rfl
    rw [hthread] at hj
    cases hj
  · exact h.leader
  · exact h.pushes

theorem barrierReturn (h : InStep s) {i : Fin n} {barrier : Barrier n}
    (hi : (s.workers i).point.atBarrier = true) (hstep : s.barrier.Step (.unlock i) barrier) :
    InStep { s.goTo i ((s.workers i).point.behindBarrier i) with barrier := barrier } := by
  obtain ⟨round, hround⟩ := h.round
  obtain ⟨houtside, hreturned⟩ := Barrier.step_unlock hstep
  have hself : (update s.workers i { s.workers i with
      point := (s.workers i).point.behindBarrier i } i).point =
      (s.workers i).point.behindBarrier i := by rw [Function.update_self]
  constructor
  · exact hround.step hstep (by simp)
  · intro j
    change barrier.returned j = (update s.workers i _ j).point.rounds
    rw [hreturned]
    by_cases heq : j = i
    · rw [heq, hself, Function.update_self, h.returned i, Point.rounds_behindBarrier hi]
    · rw [Function.update_of_ne heq, Function.update_of_ne heq, h.returned j]
  · intro j hj
    change (update s.workers i _ j).point.atBarrier = false at hj
    by_cases heq : j = i
    · rw [heq]
      exact houtside
    · rw [Function.update_of_ne heq] at hj
      exact Barrier.step_points hstep heq (h.outside j hj)
  · intro j hj
    change (update s.workers i _ j).point.leading = true at hj
    by_cases heq : j = i
    · rw [heq, hself] at hj
      rw [heq]
      generalize (s.workers i).point = point at hi hj
      cases point with
      | firstBarrier =>
          by_contra hid
          rw [Point.behindBarrier, if_neg hid] at hj
          cases hj
      | secondBarrier => cases hj
      | _ => cases hi
    · rw [Function.update_of_ne heq] at hj
      exact h.leader j hj
  · have hcount := countParties_update (fun worker : Worker K V OutputPair =>
      worker.point.pushed = true) s.workers i
      { s.workers i with point := (s.workers i).point.behindBarrier i }
    have hbefore : (s.workers i).point.pushed = true := by
      generalize (s.workers i).point = point at hi
      cases point <;> simp_all [Point.atBarrier, Point.pushed]
    have hbehind : ((s.workers i).point.behindBarrier i).pushed = true := by
      apply Point.pushed_of_rounds
      rw [Point.rounds_behindBarrier hi]
      omega
    rw [← h.pushes, if_pos hbefore, if_pos hbehind] at hcount
    exact (Nat.add_right_cancel hcount).symm

theorem step (h : InStep s) {event : JobEvent n} (hstep : Step client inputVec s event s')
    (hearly : NotEarly s event s') : InStep s' := by
  cases event with
  | own i =>
      obtain ⟨worker, hown⟩ := own_step hstep
      exact h.own hown
  | barrier event =>
      cases hstep with
      | barrier hthread hreturn hbarrier =>
          apply h.barrier hthread hreturn _ hbarrier
          rintro i rfl
          exact hearly i rfl
      | barrierReturn hi hbarrier => exact h.barrierReturn hi hbarrier

/-- Some worker is not waiting in the barrier, unless all are finished. -/
theorem not_all_waiting (h : InStep s) {i : Fin n} (hi : (s.workers i).point.finished = false)
    (hall : ∀ j, (s.workers j).point.finished = false → s.barrier.points j = .waiting) : False := by
  obtain ⟨round, hround⟩ := h.round
  have hwaiting := hall i hi
  have hrounds : (s.workers i).point.rounds ≤ 1 := by
    apply Point.rounds_atBarrier
    by_contra hat
    rw [h.outside i (Bool.eq_false_of_not_eq_true hat)] at hwaiting
    cases hwaiting
  have hentered := hround.entered i
  have hcalled := hround.called i
  rw [hwaiting] at hentered hcalled
  rw [h.returned i] at hcalled
  -- a worker that does not wait, so it has finished both rounds
  obtain ⟨j, hj⟩ : ∃ j, ¬ s.barrier.points j = .waiting := by
    apply exists_not_of_countParties_lt (· = BarrierPoint.waiting) s.barrier.points
    rw [← hround.count, Fintype.card_fin]
    exact hround.count_lt
  have hfinished : (s.workers j).point = .reducePhase .out := by
    have hj' : (s.workers j).point.finished = true := by
      by_contra hnot
      exact hj (hall j (Bool.eq_false_of_not_eq_true hnot))
    exact Point.eq_of_finished hj'
  have hreturned := hround.returned_le j
  rw [h.returned j, hfinished] at hreturned
  change 2 ≤ round at hreturned
  simp only [BarrierPoint.inRound, BarrierPoint.inCall] at hentered hcalled
  omega

end InStep

/-! ### The shuffle is complete -/

/-- When worker 0 is behind the shuffle, all pairs were taken off the vectors. -/
def Emptied (s : Job n InputPair K V OutputPair) : Prop :=
  ∀ i, i.val = 0 → (s.workers i).point.shuffled = true → ∀ vec ∈ s.beforeShuffle, vec = []

theorem emptied_own (hemptied : s.Emptied) (h : InStep s) {i : Fin n}
    {worker : Worker K V OutputPair} (hown : Own s i s' worker) : s'.Emptied := by
  intro j hj hshuffled
  rw [hown.workers] at hshuffled
  by_cases heq : j = i
  · rw [heq, Function.update_self] at hshuffled
    rcases hown.shuffled hshuffled with ⟨hbefore, hsame⟩ | hempty
    · rw [hsame]
      exact hemptied i (heq ▸ hj) hbefore
    · exact hempty
  · rw [Function.update_of_ne heq] at hshuffled
    rcases hown.before with hsame | hpushing | hleading
    · rw [hsame]
      exact hemptied j hj hshuffled
    · have hpushed := h.all_pushed (Point.rounds_of_shuffled hshuffled) i
      rw [hpushing] at hpushed
      cases hpushed
    · exact absurd (Fin.ext (hj.trans (h.leader i hleading).symm)) heq

theorem emptied_step (hemptied : s.Emptied) (h : InStep s) {event : JobEvent n}
    (hstep : Step client inputVec s event s') : s'.Emptied := by
  cases event with
  | own i =>
      obtain ⟨worker, hown⟩ := own_step hstep
      exact emptied_own hemptied h hown
  | barrier event =>
      cases hstep with
      | barrier _ _ _ => exact hemptied
      | @barrierReturn i _ hi _ =>
          intro j hj hshuffled
          by_cases heq : j = i
          · apply hemptied j hj
            subst heq
            simp only [goTo, setWorker, Function.update_self] at hshuffled
            generalize (s.workers j).point = point at hi hshuffled ⊢
            cases point with
            | firstBarrier =>
                rw [Point.behindBarrier, if_pos hj] at hshuffled
                cases hshuffled
            | secondBarrier => rfl
            | _ => cases hi
          · simp only [goTo, setWorker, Function.update_of_ne heq] at hshuffled
            exact hemptied j hj hshuffled

/-! ### Two workers -/

/-- Four states of a job of two workers with three pairs of input and two keys: worker 0 has counted its
first call of `map` and worker 1 has not, worker 0 has returned from the second round of the barrier
and worker 1 has not, all pairs of `reduce` are counted and no worker has returned, and the end. -/
structure TwoWorkers (mapping released counted done : Job 2 Nat Nat Nat Nat) : Prop where
  run_mapping : ∃ events, Run (Meeting (Step echoClient [7, 5, 7]) NotEarly)
    (create 2 Nat Nat [7, 5, 7] []) events mapping
  run_released : ∃ events, Run (Meeting (Step echoClient [7, 5, 7]) NotEarly) mapping events released
  run_counted : ∃ events, Run (Meeting (Step echoClient [7, 5, 7]) NotEarly) released events counted
  run_done : ∃ events, Run (Meeting (Step echoClient [7, 5, 7]) NotEarly) counted events done
  mapping_words : getStageBits mapping.atomicState = Stage.map.value ∧
    getCountBits mapping.atomicState = 1
  mapping_calls : mapping.mapCalls.length = 2
  mapping_points : (mapping.workers 1).point = .mapPhase (.count 1)
  released_points : (released.workers 0).point = .reducePhase .load ∧
    (released.workers 1).point = .secondBarrier
  counted_words : getStageBits counted.atomicState = Stage.reduce.value ∧
    getCountBits counted.atomicState = 3 ∧ getTotalBits counted.atomicState = 3
  counted_points : ∀ i, (counted.workers i).point = .reducePhase .next
  done_points : ∀ i, (done.workers i).point = .reducePhase .out
  done_groups : done.afterShuffle = [[(7, 7), (7, 7)], [(5, 5)]]
  done_pairs : done.mapCalls.flatMap Call.emitted = [(7, 7), (5, 5), (7, 7)]

theorem exists_twoWorkers :
    ∃ mapping released counted done, TwoWorkers mapping released counted done := by
  have hsorts₀ : Sorts echoClient.less [(7, 7), (7, 7)] [(7, 7), (7, 7)] :=
    ⟨List.Perm.refl _, fun _ => by simp [SortedVec, KeyLT, echoClient]⟩
  have hsorts₁ : Sorts echoClient.less [(5, 5)] [(5, 5)] :=
    ⟨List.Perm.refl _, fun _ => by simp [SortedVec]⟩
  have hrun : Run (Step echoClient [7, 5, 7]) (create 2 Nat Nat [7, 5, 7] []) [] _ := .start
  have hrun := hrun.next (.mapLoad (i := 0) rfl)
  have hrun := hrun.next (.mapLoad (i := 1) rfl)
  have hrun := hrun.next (.mapNext (i := 0) rfl)
  have hrun := hrun.next (.mapNext (i := 1) rfl)
  have hrun := hrun.next (.map (i := 0) rfl rfl rfl)
  have hrun := hrun.next (.map (i := 1) rfl rfl rfl)
  have hrun := hrun.next (.mapCount (i := 0) rfl)
  have hmapping : Run (Meeting _ NotEarly) _ _ _ := hrun.meeting_of_forall (by simp [NotEarly])
  have hrun := hrun.here
  have hrun := hrun.next (.mapCount (i := 1) rfl)
  have hrun := hrun.next (.mapNext (i := 0) rfl)
  have hrun := hrun.next (.map (i := 0) rfl rfl rfl)
  have hrun := hrun.next (.mapCount (i := 0) rfl)
  have hrun := hrun.next (.mapNext (i := 0) rfl)
  have hrun := hrun.next (.mapNext (i := 1) rfl)
  have hrun := hrun.next (.sort (i := 0) rfl hsorts₀)
  have hrun := hrun.next (.sort (i := 1) rfl hsorts₁)
  have hrun := hrun.next (.pushBack (i := 0) rfl)
  have hrun := hrun.next (.pushBack (i := 1) rfl)
  -- the first round of the barrier
  have hrun := hrun.next (.barrier rfl (by decide) (.enter (i := 0) rfl))
  have hrun := hrun.next (.barrier rfl (by decide) (.lock (i := 0) rfl rfl))
  have hrun := hrun.next (.barrier rfl (by decide) (.wait (i := 0) rfl (by decide)))
  have hrun := hrun.next (.barrier rfl (by decide) (.enter (i := 1) rfl))
  have hrun := hrun.next (.barrier rfl (by decide) (.lock (i := 1) rfl rfl))
  have hrun := hrun.next (.barrier rfl (by decide) (.wakeAll (i := 1) rfl (by decide)))
  have hrun := hrun.next (.barrierReturn (i := 1) rfl (.unlock rfl))
  have hrun := hrun.next (.barrier rfl (by decide) (.relock (i := 0) rfl rfl))
  have hrun := hrun.next (.barrierReturn (i := 0) rfl (.unlock rfl))
  -- worker 0 shuffles: the group of 7, the group of 5, and no key is left
  have hrun := hrun.next (.countElements (i := 0) rfl)
  have hrun := hrun.next (.resetState (i := 0) rfl)
  have hrun := hrun.next (.resetNext (i := 0) rfl)
  have hrun := hrun.next (.shuffle (i := 0) rfl rfl)
  have hrun := hrun.next (.shuffle (i := 0) rfl rfl)
  have hrun := hrun.next (.shuffle (i := 0) rfl rfl)
  have hrun := hrun.next (.shuffle (i := 0) rfl rfl)
  have hrun := hrun.next (.shuffle (i := 0) rfl rfl)
  have hrun := hrun.next (.shuffle (i := 0) rfl rfl)
  have hrun := hrun.next (.shuffle (i := 0) rfl rfl)
  have hrun := hrun.next (.shuffle (i := 0) rfl rfl)
  have hrun := hrun.next (.shuffle (i := 0) rfl rfl)
  have hrun := hrun.next (.shuffle (i := 0) rfl rfl)
  have hrun := hrun.next (.shuffle (i := 0) rfl rfl)
  have hrun := hrun.next (.shuffle (i := 0) rfl rfl)
  have hrun := hrun.next (.countShuffled (i := 0) rfl)
  have hrun := hrun.next (.resetState (i := 0) rfl)
  have hrun := hrun.next (.resetNext (i := 0) rfl)
  -- the second round
  have hrun := hrun.next (.barrier rfl (by decide) (.enter (i := 1) rfl))
  have hrun := hrun.next (.barrier rfl (by decide) (.lock (i := 1) rfl rfl))
  have hrun := hrun.next (.barrier rfl (by decide) (.wait (i := 1) rfl (by decide)))
  have hrun := hrun.next (.barrier rfl (by decide) (.enter (i := 0) rfl))
  have hrun := hrun.next (.barrier rfl (by decide) (.lock (i := 0) rfl rfl))
  have hrun := hrun.next (.barrier rfl (by decide) (.wakeAll (i := 0) rfl (by decide)))
  have hrun := hrun.next (.barrierReturn (i := 0) rfl (.unlock rfl))
  have hreleased : Run (Meeting _ NotEarly) _ _ _ := hrun.meeting_of_forall (by simp [NotEarly])
  have hrun := hrun.here
  have hrun := hrun.next (.barrier rfl (by decide) (.relock (i := 1) rfl rfl))
  have hrun := hrun.next (.barrierReturn (i := 1) rfl (.unlock rfl))
  have hrun := hrun.next (.reduceLoad (i := 0) rfl)
  have hrun := hrun.next (.reduceNext (i := 0) rfl)
  have hrun := hrun.next (.reduce (i := 0) rfl rfl rfl)
  have hrun := hrun.next (.reduceLoad (i := 1) rfl)
  have hrun := hrun.next (.reduceNext (i := 1) rfl)
  have hrun := hrun.next (.reduce (i := 1) rfl rfl rfl)
  have hrun := hrun.next (.emit3 (i := 0) rfl rfl)
  have hrun := hrun.next (.emit3 (i := 0) rfl rfl)
  have hrun := hrun.next (.emit3 (i := 1) rfl rfl)
  have hrun := hrun.next (.reduceCount (i := 0) rfl rfl rfl)
  have hrun := hrun.next (.reduceCount (i := 1) rfl rfl rfl)
  have hcounted : Run (Meeting _ NotEarly) _ _ _ := hrun.meeting_of_forall (by simp [NotEarly])
  have hrun := hrun.here
  have hrun := hrun.next (.reduceNext (i := 0) rfl)
  have hrun := hrun.next (.reduceNext (i := 1) rfl)
  have hdone : Run (Meeting _ NotEarly) _ _ _ := hrun.meeting_of_forall (by simp [NotEarly])
  exact ⟨_, _, _, _, ⟨_, hmapping⟩, ⟨_, hreleased⟩, ⟨_, hcounted⟩, ⟨_, hdone⟩, ⟨rfl, rfl⟩, rfl,
    rfl, ⟨rfl, rfl⟩, ⟨rfl, rfl, rfl⟩, Fin.forall_fin_two.mpr ⟨rfl, rfl⟩,
    Fin.forall_fin_two.mpr ⟨rfl, rfl⟩, rfl, rfl⟩

namespace TwoWorkers

variable {mapping released counted done : Job 2 Nat Nat Nat Nat}
  (h : TwoWorkers mapping released counted done)
include h

theorem exists_rest :
    ∃ events, Run (Meeting (Step echoClient [7, 5, 7]) NotEarly) mapping events done := by
  obtain ⟨events₂, hreleased⟩ := h.run_released
  obtain ⟨events₃, hcounted⟩ := h.run_counted
  obtain ⟨events₄, hdone⟩ := h.run_done
  exact ⟨_, (hreleased.append hcounted).append hdone⟩

theorem exists_run :
    ∃ events, Run (Meeting (Step echoClient [7, 5, 7]) NotEarly) (create 2 Nat Nat [7, 5, 7] [])
      events done := by
  obtain ⟨events₁, hmapping⟩ := h.run_mapping
  obtain ⟨events₂, hrest⟩ := h.exists_rest
  exact ⟨_, hmapping.append hrest⟩

end TwoWorkers

/-! ### Runs -/

theorem run_inStep (hn : 1 ≤ n) {outputVec : List OutputPair} {events : List (JobEvent n)}
    (hrun : Run (Meeting (Step client inputVec) NotEarly) (create n K V inputVec outputVec) events s) :
    InStep s ∧ s.Emptied := by
  apply hrun.invariant ⟨InStep.create hn outputVec, fun _ _ hshuffled => by cases hshuffled⟩
  intro s event s' h hstep
  exact ⟨h.1.step hstep.1 hstep.2, emptied_step h.2 h.1 hstep.1⟩

/-- **The phases.** When a worker is behind the first round of the barrier, where worker 0 shuffles
and resets the counters, all workers have pushed their vectors. When a worker is in `reduce_phase`,
worker 0 is behind the reset for it, and the shuffle has taken all pairs. And the workers that are not
finished never all wait in the barrier. -/
theorem phases_separated (hn : 1 ≤ n) (client : Client InputPair K V OutputPair)
    (inputVec : List InputPair) (outputVec : List OutputPair) {events : List (JobEvent n)}
    {s : Job n InputPair K V OutputPair}
    (hrun : Run (Meeting (Step client inputVec) NotEarly) (create n K V inputVec outputVec) events s) :
    (∀ i, (s.workers i).point.leading = true ∨ 1 ≤ (s.workers i).point.rounds →
      s.beforeShuffle.length = n ∧ ∀ j, (s.workers j).point.pushed = true) ∧
    (∀ i point, (s.workers i).point = .reducePhase point →
      (∀ j, j.val = 0 → (s.workers j).point = .secondBarrier ∨
        ∃ point', (s.workers j).point = .reducePhase point') ∧
      ∀ vec ∈ s.beforeShuffle, vec = []) ∧
    (∀ i, (s.workers i).point.leading = true → i.val = 0) ∧
    ¬ ((∃ i, (s.workers i).point.finished = false) ∧
      ∀ i, (s.workers i).point.finished = false → s.barrier.points i = .waiting) := by
  obtain ⟨h, hemptied⟩ := run_inStep hn hrun
  refine ⟨?_, ?_, h.leader, ?_⟩
  · intro i hi
    have hrounds : 1 ≤ (s.workers i).point.rounds := hi.elim Point.rounds_of_leading id
    have hall := h.all_pushed hrounds
    refine ⟨?_, hall⟩
    rw [h.pushes, countParties_eq_card, Finset.filter_true_of_mem fun j _ => hall j,
      Finset.card_univ, Fintype.card_fin]
  · intro i point hi
    have hrounds : 2 ≤ (s.workers i).point.rounds := by rw [hi]; exact le_rfl
    refine ⟨fun j _ => h.all_behind hrounds j, ?_⟩
    apply hemptied ⟨0, hn⟩ rfl
    rcases h.all_behind hrounds ⟨0, hn⟩ with hsecond | ⟨point', hreduce⟩
    · rw [hsecond]
      rfl
    · rw [hreduce]
      rfl
  · rintro ⟨⟨i, hi⟩, hall⟩
    exact h.not_all_waiting hi hall

/-- Worker 0 is the first to return from the second round. -/
theorem phases_separated_released : ∃ (events : List (JobEvent 2)) (s : Job 2 Nat Nat Nat Nat),
    Run (Meeting (Step echoClient [7, 5, 7]) NotEarly) (create 2 Nat Nat [7, 5, 7] []) events s ∧
      (s.workers 0).point = .reducePhase .load ∧ (s.workers 1).point = .secondBarrier ∧
      (s.beforeShuffle.length = 2 ∧ ∀ j, (s.workers j).point.pushed = true) ∧
      (∀ vec ∈ s.beforeShuffle, vec = []) ∧
      ¬ ((∃ i, (s.workers i).point.finished = false) ∧
        ∀ i, (s.workers i).point.finished = false → s.barrier.points i = .waiting) := by
  obtain ⟨mapping, released, counted, done, h⟩ := exists_twoWorkers
  obtain ⟨events, hmapping⟩ := h.run_mapping
  obtain ⟨events', hreleased⟩ := h.run_released
  have hrun := hmapping.append hreleased
  obtain ⟨hpushed, htaken, -, hmoves⟩ := phases_separated (by decide) echoClient [7, 5, 7] [] hrun
  obtain ⟨hpoint, hpoint'⟩ := h.released_points
  have hbehind : 1 ≤ (released.workers 0).point.rounds := by
    rw [hpoint]
    decide
  exact ⟨_, _, hrun, hpoint, hpoint', hpushed 0 (Or.inr hbehind), (htaken 0 _ hpoint).2, hmoves⟩

end Job

end OsExercises.MapReduce
