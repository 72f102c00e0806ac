import OsExercises.MapReduce.Books

/-!
# The stages of a job

What the shared state of a job holds at each place of worker 0, which resets the counters. While the
workers are in `map_phase` or `reduce_phase` the word counts what they have claimed and finished; in
between it counts the pairs that worker 0 has shuffled. The order of the keys matters for one thing
only: whether the vectors that the shuffle makes are the groups of equal keys.
-/

namespace OsExercises.MapReduce

open Function (update)

namespace Point

variable {K V : Type}

/-- The place in the loop of `map_phase`. -/
def mapPoint : Point K V → LoopPoint
  | .mapPhase point => point
  | _ => .out

/-- The place in the loop of `reduce_phase`. -/
def reducePoint : Point K V → LoopPoint
  | .reducePhase point => point
  | _ => .load

/-- The stage of the job while worker 0 is here. -/
def stage : Point K V → Stage
  | .resetState .reduce _ => .shuffle
  | .resetNext .shuffle => .shuffle
  | .resetNext _ => .reduce
  | .shufflePhase _ => .shuffle
  | .secondBarrier => .reduce
  | .reducePhase _ => .reduce
  | _ => .map

end Point

/-- The number of pairs of a vector of `afterShuffle`. -/
def weightAt {K V : Type} (vecs : List (IntermediateVec K V)) (index : Nat) : Nat :=
  (vecs.getD index []).length

/-- The vectors are groups of equivalent keys, with the largest keys first. -/
def Grouped {K V : Type} (less : K → K → Bool) (groups : List (IntermediateVec K V)) : Prop :=
  (∀ group ∈ groups, IsGroup less group) ∧
    groups.Pairwise fun group group' => ∀ p ∈ group, ∀ q ∈ group', KeyLT less q.1 p.1

theorem weightOf_weightAt {K V : Type} (vecs : List (IntermediateVec K V)) :
    WorkLoop.weightOf (weightAt vecs) vecs.length = vecs.flatten.length := by
  have hmap : (List.range vecs.length).map (weightAt vecs) = vecs.map List.length := by
    apply List.ext_getElem
    · simp
    · intro index h₁ h₂
      simp only [List.getElem_map, List.getElem_range, weightAt]
      rw [List.length_map] at h₂
      rw [List.getD_eq_getElem _ _ h₂]
  rw [WorkLoop.weightOf, List.length_flatten, ← hmap]
  rfl

theorem weightOf_one (size : Nat) : WorkLoop.weightOf (fun _ => 1) size = size := by
  simp [WorkLoop.weightOf]

theorem length_le_flatten {K V : Type} {vecs : List (IntermediateVec K V)}
    (hfilled : ∀ vec ∈ vecs, vec ≠ []) : vecs.length ≤ vecs.flatten.length := by
  induction vecs with
  | nil => exact Nat.le_refl 0
  | cons vec vecs ih =>
      have hvec := List.length_pos_of_ne_nil (hfilled vec List.mem_cons_self)
      have hvecs := ih fun vec' hmem => hfilled vec' (List.mem_cons_of_mem vec hmem)
      rw [List.flatten_cons, List.length_append, List.length_cons]
      omega

namespace Job

variable {n : Nat} {InputPair K V OutputPair : Type}

/-- What `map_phase` sees of a job. -/
def mapLoop (s : Job n InputPair K V OutputPair) : WorkLoop n where
  atomicState := s.atomicState
  atomicNextToProcess := s.atomicNextToProcess
  points i := (s.workers i).point.mapPoint
  calls := s.mapCalls.map Call.index

/-- What `reduce_phase` sees of a job. -/
def reduceLoop (s : Job n InputPair K V OutputPair) : WorkLoop n where
  atomicState := s.atomicState
  atomicNextToProcess := s.atomicNextToProcess
  points i := (s.workers i).point.reducePoint
  calls := s.reduceCalls.map Call.index

/-- `map` was called once with each pair of the input. -/
def Mapped (inputVec : List InputPair) (s : Job n InputPair K V OutputPair) : Prop :=
  (s.mapCalls.map Call.index : Multiset Nat) = Multiset.range inputVec.length

structure Mapping (client : Client InputPair K V OutputPair) (inputVec : List InputPair)
    (s : Job n InputPair K V OutputPair) (count : Nat) : Prop where
  claims : ∃ claimed,
    WorkLoop.Claims .map inputVec.length (fun _ => 1) s.mapLoop claimed count
  afterShuffle : s.afterShuffle = []
  reduceCalls : s.reduceCalls = []
  sorted : IsStrictWeakOrder K (KeyLT client.less) →
    ∀ vec ∈ s.beforeShuffle, SortedVec client.less vec
  pushing : IsStrictWeakOrder K (KeyLT client.less) →
    ∀ i, (s.workers i).point = .pushBack → SortedVec client.less (s.workers i).intermediateVec

structure Shuffling (client : Client InputPair K V OutputPair) (inputVec : List InputPair)
    (s : Job n InputPair K V OutputPair) (point : ShufflePoint K V) (count : Nat) : Prop where
  word : s.atomicState = jobWord .shuffle s.intermediatePairs.length count
  count : count = s.afterShuffle.flatten.length + point.temp.length
  reduceCalls : s.reduceCalls = []
  mapped : s.Mapped inputVec
  run : ∃ vecs amounts,
    Run (Shuffle.Step client.less) ⟨vecs, [], .key⟩ amounts ⟨s.beforeShuffle, s.afterShuffle, point⟩ ∧
      (IsStrictWeakOrder K (KeyLT client.less) → ∀ vec ∈ vecs, SortedVec client.less vec)

structure Shuffled (client : Client InputPair K V OutputPair) (inputVec : List InputPair)
    (s : Job n InputPair K V OutputPair) : Prop where
  pairs : s.afterShuffle.flatten.length = s.intermediatePairs.length
  filled : ∀ vec ∈ s.afterShuffle, vec ≠ []
  grouped : IsStrictWeakOrder K (KeyLT client.less) → Grouped client.less s.afterShuffle
  mapped : s.Mapped inputVec

structure Reducing (client : Client InputPair K V OutputPair) (inputVec : List InputPair)
    (s : Job n InputPair K V OutputPair) (count : Nat) : Prop extends
    Shuffled client inputVec s where
  claims : ∃ claimed,
    WorkLoop.Claims .reduce s.afterShuffle.length (weightAt s.afterShuffle) s.reduceLoop claimed count
  calls : ∀ call ∈ s.reduceCalls,
    s.afterShuffle[call.index]? = some call.argument ∧ client.reduce call.argument call.emitted

/-- What the shared state holds while worker 0 is at a place. -/
def StageInv (client : Client InputPair K V OutputPair) (inputVec : List InputPair)
    (s : Job n InputPair K V OutputPair) (count : Nat) : Point K V → Prop
  | .mapPhase _ => Mapping client inputVec s count
  | .pushBack => Mapping client inputVec s count
  | .firstBarrier => Mapping client inputVec s count
  | .countElements => Mapping client inputVec s count
  | .resetState .shuffle totalElements =>
      Mapping client inputVec s count ∧ totalElements = s.beforeShuffle.flatten.length
  | .resetNext .shuffle => Shuffling client inputVec s .key count
  | .shufflePhase point => Shuffling client inputVec s point count
  | .resetState .reduce totalElements =>
      Shuffling client inputVec s .out count ∧ totalElements = s.afterShuffle.flatten.length
  | .resetNext .reduce =>
      Shuffled client inputVec s ∧ s.reduceCalls = [] ∧
        s.atomicState = jobWord .reduce s.intermediatePairs.length 0 ∧ count = 0
  | .secondBarrier => Reducing client inputVec s count
  | .reducePhase _ => Reducing client inputVec s count
  | _ => False

/-! ### Moves that leave the stage alone -/

section Moves

variable {client : Client InputPair K V OutputPair} {inputVec : List InputPair}
  {s s' : Job n InputPair K V OutputPair} {i : Fin n} {worker : Worker K V OutputPair} {count : Nat}

theorem points_update (place : Point K V → LoopPoint) (workers : Fin n → Worker K V OutputPair) :
    (fun j => place (update workers i worker j).point) =
      update (fun j => place (workers j).point) i (place worker.point) := by
  funext j
  by_cases heq : j = i
  · rw [heq, Function.update_self, Function.update_self]
  · rw [Function.update_of_ne heq, Function.update_of_ne heq]

theorem mapLoop_eq (hworkers : s'.workers = update s.workers i worker) :
    s'.mapLoop = ⟨s'.atomicState, s'.atomicNextToProcess,
      update s.mapLoop.points i worker.point.mapPoint, s'.mapCalls.map Call.index⟩ := by
  rw [mapLoop, hworkers, points_update]
  rfl

theorem mapLoop_same (hworkers : s'.workers = update s.workers i worker)
    (hpoint : worker.point.mapPoint = (s.workers i).point.mapPoint)
    (hstate : s'.atomicState = s.atomicState)
    (hnext : s'.atomicNextToProcess = s.atomicNextToProcess) (hcalls : s'.mapCalls = s.mapCalls) :
    s'.mapLoop = s.mapLoop := by
  have hsame : worker.point.mapPoint = s.mapLoop.points i := hpoint
  rw [mapLoop_eq hworkers, hstate, hnext, hcalls, hsame, Function.update_eq_self]
  rfl

theorem reduceLoop_eq (hworkers : s'.workers = update s.workers i worker) :
    s'.reduceLoop = ⟨s'.atomicState, s'.atomicNextToProcess,
      update s.reduceLoop.points i worker.point.reducePoint, s'.reduceCalls.map Call.index⟩ := by
  rw [reduceLoop, hworkers, points_update]
  rfl

theorem reduceLoop_same (hworkers : s'.workers = update s.workers i worker)
    (hpoint : worker.point.reducePoint = (s.workers i).point.reducePoint)
    (hstate : s'.atomicState = s.atomicState)
    (hnext : s'.atomicNextToProcess = s.atomicNextToProcess)
    (hcalls : s'.reduceCalls = s.reduceCalls) : s'.reduceLoop = s.reduceLoop := by
  have hsame : worker.point.reducePoint = s.reduceLoop.points i := hpoint
  rw [reduceLoop_eq hworkers, hstate, hnext, hcalls, hsame, Function.update_eq_self]
  rfl

/-- The move of one worker that changes nothing the stages are about. -/
structure Same (s s' : Job n InputPair K V OutputPair) : Prop where
  mapLoop : s'.mapLoop = s.mapLoop
  reduceLoop : s'.reduceLoop = s.reduceLoop
  beforeShuffle : s'.beforeShuffle = s.beforeShuffle
  afterShuffle : s'.afterShuffle = s.afterShuffle
  mapCalls : s'.mapCalls = s.mapCalls
  reduceCalls : s'.reduceCalls = s.reduceCalls
  pushing : ∀ i, (s'.workers i).point = .pushBack → s'.workers i = s.workers i

theorem pushing_update (hworkers : s'.workers = update s.workers i worker)
    (hpoint : worker.point ≠ .pushBack) (j : Fin n) (hj : (s'.workers j).point = .pushBack) :
    s'.workers j = s.workers j := by
  rw [hworkers] at hj ⊢
  by_cases heq : j = i
  · rw [heq, Function.update_self] at hj
    exact absurd hj hpoint
  · rw [Function.update_of_ne heq]

/-- A worker goes from a place outside both loops to another. -/
theorem Same.goTo {point old : Point K V} (hi : (s.workers i).point = old)
    (hmap : point.mapPoint = old.mapPoint) (hreduce : point.reducePoint = old.reducePoint)
    (hpoint : point ≠ .pushBack) : Same s (s.goTo i point) where
  mapLoop := mapLoop_same (i := i) rfl (hmap.trans (congrArg Point.mapPoint hi.symm)) rfl rfl rfl
  reduceLoop :=
    reduceLoop_same (i := i) rfl (hreduce.trans (congrArg Point.reducePoint hi.symm)) rfl rfl rfl
  beforeShuffle := rfl
  afterShuffle := rfl
  mapCalls := rfl
  reduceCalls := rfl
  pushing := pushing_update rfl hpoint

theorem Same.atomicState (h : Same s s') : s'.atomicState = s.atomicState :=
  congrArg WorkLoop.atomicState h.mapLoop

theorem Same.intermediatePairs (h : Same s s') : s'.intermediatePairs = s.intermediatePairs := by
  rw [Job.intermediatePairs, h.mapCalls, Job.intermediatePairs]

theorem Same.mapped (h : Same s s') (hmapped : s.Mapped inputVec) : s'.Mapped inputVec := by
  rw [Mapped, h.mapCalls]
  exact hmapped

theorem Mapping.same (hstage : Mapping client inputVec s count) (h : Same s s') :
    Mapping client inputVec s' count where
  claims := by
    rw [h.mapLoop]
    exact hstage.claims
  afterShuffle := h.afterShuffle.trans hstage.afterShuffle
  reduceCalls := h.reduceCalls.trans hstage.reduceCalls
  sorted := by
    rw [h.beforeShuffle]
    exact hstage.sorted
  pushing := by
    intro horder j hj
    have hsame := h.pushing j hj
    rw [hsame] at hj ⊢
    exact hstage.pushing horder j hj

theorem Shuffling.same {point : ShufflePoint K V}
    (hstage : Shuffling client inputVec s point count) (h : Same s s') :
    Shuffling client inputVec s' point count where
  word := by
    rw [h.atomicState, h.intermediatePairs]
    exact hstage.word
  count := by
    rw [h.afterShuffle]
    exact hstage.count
  reduceCalls := h.reduceCalls.trans hstage.reduceCalls
  mapped := h.mapped hstage.mapped
  run := by
    rw [h.beforeShuffle, h.afterShuffle]
    exact hstage.run

theorem Shuffled.same (hstage : Shuffled client inputVec s) (h : Same s s') :
    Shuffled client inputVec s' where
  pairs := by
    rw [h.afterShuffle, h.intermediatePairs]
    exact hstage.pairs
  filled := by
    rw [h.afterShuffle]
    exact hstage.filled
  grouped := by
    rw [h.afterShuffle]
    exact hstage.grouped
  mapped := h.mapped hstage.mapped

theorem Reducing.same (hstage : Reducing client inputVec s count) (h : Same s s') :
    Reducing client inputVec s' count where
  toShuffled := hstage.toShuffled.same h
  claims := by
    rw [h.afterShuffle, h.reduceLoop]
    exact hstage.claims
  calls := by
    rw [h.afterShuffle, h.reduceCalls]
    exact hstage.calls

theorem StageInv.same {point : Point K V} (hstage : StageInv client inputVec s count point)
    (h : Same s s') : StageInv client inputVec s' count point := by
  cases point with
  | mapPhase _ => exact Mapping.same hstage h
  | pushBack => exact Mapping.same hstage h
  | firstBarrier => exact Mapping.same hstage h
  | countElements => exact Mapping.same hstage h
  | resetState stage totalElements =>
      cases stage with
      | shuffle => exact ⟨hstage.1.same h, hstage.2.trans (by rw [h.beforeShuffle])⟩
      | reduce => exact ⟨hstage.1.same h, hstage.2.trans (by rw [h.afterShuffle])⟩
      | _ => exact hstage.elim
  | resetNext stage =>
      cases stage with
      | shuffle => exact Shuffling.same hstage h
      | reduce =>
          obtain ⟨hshuffled, hcalls, hword, hcount⟩ := hstage
          refine ⟨hshuffled.same h, h.reduceCalls.trans hcalls, ?_, hcount⟩
          rw [h.atomicState, h.intermediatePairs]
          exact hword
      | _ => exact hstage.elim
  | shufflePhase _ => exact Shuffling.same hstage h
  | secondBarrier => exact Reducing.same hstage h
  | reducePhase _ => exact Reducing.same hstage h

/-- In front of the first round of the barrier. -/
theorem stageInv_iff_mapping {point : Point K V} (hrounds : point.rounds = 0) :
    StageInv client inputVec s count point ↔ Mapping client inputVec s count := by
  cases point <;> first | exact Iff.rfl | cases hrounds

/-- Behind the reset for `reduce_phase`. -/
theorem stageInv_iff_reducing {point : Point K V}
    (hpoint : point = .secondBarrier ∨ ∃ inner, point = .reducePhase inner) :
    StageInv client inputVec s count point ↔ Reducing client inputVec s count := by
  rcases hpoint with rfl | ⟨inner, rfl⟩ <;> exact Iff.rfl

end Moves

/-! ### The steps of `map_phase` -/

section MapPhase

variable {client : Client InputPair K V OutputPair} {inputVec : List InputPair}
  {s s' : Job n InputPair K V OutputPair} {i : Fin n} {count : Nat}

/-- A step of the loop. -/
theorem Mapping.loop (h : Mapping client inputVec s count) (hworkers_lt : n < 2 ^ 31)
    (hsize : inputVec.length < 2 ^ 31) {worker : Worker K V OutputPair}
    (hworkers : s'.workers = update s.workers i worker) (hpoint : worker.point ≠ .pushBack)
    (hloop : WorkLoop.Step inputVec.length (fun _ => 1) i s.mapLoop
      ⟨s'.atomicState, s'.atomicNextToProcess, update s.mapLoop.points i worker.point.mapPoint,
        s'.mapCalls.map Call.index⟩)
    (hbefore : s'.beforeShuffle = s.beforeShuffle) (hafter : s'.afterShuffle = s.afterShuffle)
    (hcalls : s'.reduceCalls = s.reduceCalls) :
    ∃ count', Mapping client inputVec s' count' ∧ count ≤ count' := by
  obtain ⟨claimed, hclaims⟩ := h.claims
  have hfits : WorkLoop.Fits n inputVec.length (fun _ => 1) :=
    ⟨hworkers_lt, hsize, by rwa [weightOf_one]⟩
  rw [← mapLoop_eq hworkers] at hloop
  obtain ⟨claimed', count', hclaims', hle⟩ := hclaims.step hfits hloop
  refine ⟨count', ?_, hle⟩
  constructor
  · exact ⟨claimed', hclaims'⟩
  · exact hafter.trans h.afterShuffle
  · exact hcalls.trans h.reduceCalls
  · rw [hbefore]
    exact h.sorted
  · intro horder j hj
    have hsame := pushing_update hworkers hpoint j hj
    rw [hsame] at hj ⊢
    exact h.pushing horder j hj

theorem Mapping.own (h : Mapping client inputVec s count) (hworkers : n < 2 ^ 31)
    (hsize : inputVec.length < 2 ^ 31) (hi : (s.workers i).point.pushed = false)
    (hstep : Step client inputVec s (.own i) s') :
    ∃ count', Mapping client inputVec s' count' ∧ count ≤ count' := by
  cases hstep with
  | mapLoad hpoint =>
      have hin : s.mapLoop.points i = .load := congrArg Point.mapPoint hpoint
      exact h.loop (i := i) hworkers hsize rfl nofun (.load hin) rfl rfl rfl
  | mapNext hpoint =>
      have hin : s.mapLoop.points i = .next := congrArg Point.mapPoint hpoint
      exact h.loop (i := i) hworkers hsize rfl nofun (.next hin) rfl rfl rfl
  | @map _ index pair emitted hpoint hpair hemitted =>
      have hin : s.mapLoop.points i = .call index := congrArg Point.mapPoint hpoint
      have hloop : WorkLoop.Step inputVec.length (fun _ => 1) i s.mapLoop _ := .call hin
      have hcalls : ∀ call : Call InputPair (K × V),
          (s.mapCalls ++ [call]).map Call.index = s.mapLoop.calls ++ [call.index] :=
        fun _ => List.map_append
      rw [← hcalls ⟨index, pair, emitted⟩] at hloop
      exact h.loop (i := i) hworkers hsize rfl nofun hloop rfl rfl rfl
  | @mapCount _ index hpoint =>
      have hin : s.mapLoop.points i = .count index := congrArg Point.mapPoint hpoint
      exact h.loop (i := i) hworkers hsize rfl nofun (.count hin) rfl rfl rfl
  | @sort _ vec hpoint hsorts =>
      have hsame : (s.setWorker i { s.workers i with
          point := .pushBack, intermediateVec := vec }).mapLoop = s.mapLoop :=
        mapLoop_same (i := i) rfl (congrArg Point.mapPoint hpoint).symm rfl rfl rfl
      refine ⟨count, ?_, le_rfl⟩
      constructor
      · rw [hsame]
        exact h.claims
      · exact h.afterShuffle
      · exact h.reduceCalls
      · exact h.sorted
      · intro horder j hj
        by_cases heq : j = i
        · rw [heq, setWorker_self]
          exact hsorts.2 horder
        · rw [setWorker_of_ne s heq] at hj ⊢
          exact h.pushing horder j hj
  | pushBack hpoint =>
      have hsame : (s.goTo i .firstBarrier).mapLoop = s.mapLoop :=
        mapLoop_same (i := i) rfl (congrArg Point.mapPoint hpoint).symm rfl rfl rfl
      refine ⟨count, ?_, le_rfl⟩
      constructor
      · change ∃ claimed, WorkLoop.Claims _ _ _ (s.goTo i .firstBarrier).mapLoop claimed count
        rw [hsame]
        exact h.claims
      · exact h.afterShuffle
      · exact h.reduceCalls
      · intro horder vec hvec
        rcases List.mem_append.mp hvec with hmem | hlast
        · exact h.sorted horder vec hmem
        · rw [List.mem_singleton.mp hlast]
          exact h.pushing horder i hpoint
      · intro horder j hj
        have hworkers : (s.goTo i .firstBarrier).workers =
            update s.workers i { s.workers i with point := .firstBarrier } := rfl
        have hsame := pushing_update hworkers nofun j hj
        change ((s.goTo i .firstBarrier).workers j).point = .pushBack at hj
        change SortedVec client.less ((s.goTo i .firstBarrier).workers j).intermediateVec
        rw [hsame] at hj ⊢
        exact h.pushing horder j hj
  -- these steps are made behind the first round of the barrier
  | countElements hpoint | resetState hpoint | resetNext hpoint | shuffle hpoint _
  | countShuffled hpoint | reduceLoad hpoint | reduceNext hpoint | reduce hpoint _ _
  | emit3 hpoint _ | reduceCount hpoint _ _ =>
      rw [hpoint] at hi
      cases hi

end MapPhase

/-! ### The steps of `reduce_phase` -/

section ReducePhase

variable {client : Client InputPair K V OutputPair} {inputVec : List InputPair}
  {s s' : Job n InputPair K V OutputPair} {i : Fin n} {count : Nat}

theorem Shuffled.fits (h : Shuffled client inputVec s) (hworkers : n < 2 ^ 31)
    (hfew : s.intermediatePairs.length < 2 ^ 31) :
    WorkLoop.Fits n s.afterShuffle.length (weightAt s.afterShuffle) where
  workers_lt := hworkers
  size_lt := by
    have hle := length_le_flatten h.filled
    rw [h.pairs] at hle
    omega
  weight_lt := by rwa [weightOf_weightAt, h.pairs]

/-- A step of the loop. -/
theorem Reducing.loop (h : Reducing client inputVec s count) (hworkers_lt : n < 2 ^ 31)
    (hfew : s.intermediatePairs.length < 2 ^ 31) {worker : Worker K V OutputPair}
    (hworkers : s'.workers = update s.workers i worker)
    (hloop : WorkLoop.Step s.afterShuffle.length (weightAt s.afterShuffle) i s.reduceLoop
      ⟨s'.atomicState, s'.atomicNextToProcess, update s.reduceLoop.points i worker.point.reducePoint,
        s'.reduceCalls.map Call.index⟩)
    (hafter : s'.afterShuffle = s.afterShuffle) (hmapCalls : s'.mapCalls = s.mapCalls)
    (hcalls : ∀ call ∈ s'.reduceCalls,
      s.afterShuffle[call.index]? = some call.argument ∧ client.reduce call.argument call.emitted) :
    ∃ count', Reducing client inputVec s' count' ∧ count ≤ count' := by
  obtain ⟨claimed, hclaims⟩ := h.claims
  rw [← reduceLoop_eq hworkers] at hloop
  obtain ⟨claimed', count', hclaims', hle⟩ :=
    hclaims.step (h.toShuffled.fits hworkers_lt hfew) hloop
  refine ⟨count', ?_, hle⟩
  constructor
  · constructor
    · rw [hafter, intermediatePairs, hmapCalls]
      exact h.pairs
    · rw [hafter]
      exact h.filled
    · rw [hafter]
      exact h.grouped
    · rw [Mapped, hmapCalls]
      exact h.mapped
  · rw [hafter]
    exact ⟨claimed', hclaims'⟩
  · rw [hafter]
    exact hcalls

theorem Reducing.own (h : Reducing client inputVec s count) (hworkers : n < 2 ^ 31)
    (hfew : s.intermediatePairs.length < 2 ^ 31) (hi : (s.workers i).point.rounds = 2)
    (hstep : Step client inputVec s (.own i) s') :
    ∃ count', Reducing client inputVec s' count' ∧ count ≤ count' := by
  cases hstep with
  | reduceLoad hpoint =>
      have hin : s.reduceLoop.points i = .load := congrArg Point.reducePoint hpoint
      exact h.loop (i := i) hworkers hfew rfl (.load hin) rfl rfl h.calls
  | reduceNext hpoint =>
      have hin : s.reduceLoop.points i = .next := congrArg Point.reducePoint hpoint
      exact h.loop (i := i) hworkers hfew rfl (.next hin) rfl rfl h.calls
  | @reduce _ index vec emitted hpoint hvec hemitted =>
      have hin : s.reduceLoop.points i = .call index := congrArg Point.reducePoint hpoint
      have hloop : WorkLoop.Step s.afterShuffle.length (weightAt s.afterShuffle) i s.reduceLoop _ :=
        .call hin
      have hcalls : ∀ call : Call (IntermediateVec K V) OutputPair,
          (s.reduceCalls ++ [call]).map Call.index = s.reduceLoop.calls ++ [call.index] :=
        fun _ => List.map_append
      rw [← hcalls ⟨index, vec, emitted⟩] at hloop
      refine h.loop (i := i) hworkers hfew rfl hloop rfl rfl ?_
      intro call hcall
      rcases List.mem_append.mp hcall with hmem | hlast
      · exact h.calls call hmem
      · rw [List.mem_singleton.mp hlast]
        exact ⟨hvec, hemitted⟩
  | @emit3 _ index pair rest hpoint _ =>
      refine ⟨count, h.same ?_, le_rfl⟩
      constructor
      · exact mapLoop_same (i := i) rfl rfl rfl rfl rfl
      · exact reduceLoop_same (i := i) rfl rfl rfl rfl rfl
      · rfl
      · rfl
      · rfl
      · rfl
      · have hworkers : (s.setWorker i { s.workers i with toEmit := rest }).workers =
            update s.workers i { s.workers i with toEmit := rest } := rfl
        refine pushing_update hworkers ?_
        rw [hpoint]
        nofun
  | @reduceCount _ index vec hpoint _ hvec =>
      have hin : s.reduceLoop.points i = .count index := congrArg Point.reducePoint hpoint
      have hloop : WorkLoop.Step s.afterShuffle.length (weightAt s.afterShuffle) i s.reduceLoop _ :=
        .count hin
      have hweight : weightAt s.afterShuffle index = vec.length := by
        rw [weightAt, List.getD_eq_getElem?_getD, hvec]
        rfl
      rw [hweight] at hloop
      exact h.loop (i := i) hworkers hfew rfl hloop rfl rfl h.calls
  -- these steps are made before the second round
  | mapLoad hpoint | mapNext hpoint | map hpoint _ _ | mapCount hpoint | sort hpoint _
  | pushBack hpoint | countElements hpoint | resetState hpoint | resetNext hpoint
  | shuffle hpoint _ | countShuffled hpoint =>
      rw [hpoint] at hi
      cases hi

end ReducePhase

end Job

end OsExercises.MapReduce
