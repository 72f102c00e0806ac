import OsExercises.MapReduce.Leader

/-!
# How far a job is

Every step of a job takes a worker further on in `thread_flow`, gives an element to the client, takes a
pair out of the vectors, finishes a group or appends to `outputVec`. So there is a measure that every
step raises, those of the loops and of the barrier included, though they go back to their beginning.
-/

namespace OsExercises.MapReduce

open Function (update)

/-! ### The measure -/

def LoopPoint.rank : LoopPoint → Nat
  | .load => 0
  | .next => 1
  | .call _ => 2
  | .count _ => 0
  | .out => 2

def BarrierPoint.rank : BarrierPoint → Nat
  | .outside => 0
  | .locking => 1
  | .locked => 2
  | .waiting => 3
  | .woken => 4
  | .unlocking => 5

theorem LoopPoint.rank_le (point : LoopPoint) : point.rank ≤ 2 := by
  cases point <;> simp [rank]

theorem LoopPoint.rank_guarded (x : Nat) : 1 ≤ (LoopPoint.guarded x).rank := by
  unfold LoopPoint.guarded
  split <;> decide

theorem LoopPoint.rank_claimed (size oldVal : Nat) : (LoopPoint.claimed size oldVal).rank = 2 := by
  unfold LoopPoint.claimed
  split <;> rfl

theorem BarrierPoint.rank_le (point : BarrierPoint) : point.rank ≤ 5 := by
  cases point <;> decide

/-- What the loop over the vectors has seen in this round of the shuffle. -/
def ShufflePoint.seen {K V : Type} : ShufflePoint K V → Nat
  | .scan _ temp index => index + temp.length
  | _ => 0

namespace Point

variable {K V : Type}

def seen : Point K V → Nat
  | .shufflePhase point => point.seen
  | _ => 0

/-- How far the worker is in `thread_flow`. -/
def rank : Point K V → Nat
  | .mapPhase point => point.rank
  | .pushBack => 3
  | .firstBarrier => 4
  | .countElements => 10
  | .resetState stage _ => if stage = .shuffle then 11 else 15
  | .resetNext stage => if stage = .shuffle then 12 else 16
  | .shufflePhase .key => 13
  | .shufflePhase point => 14 + point.seen
  | .secondBarrier => 17
  | .reducePhase point => 23 + point.rank

theorem rank_le (point : Point K V) : point.rank ≤ 25 + point.seen := by
  cases point with
  | mapPhase point => exact point.rank_le.trans (by omega)
  | resetState stage _ =>
      simp only [rank, seen]
      split <;> omega
  | resetNext stage =>
      simp only [rank, seen]
      split <;> omega
  | shufflePhase point =>
      cases point <;> simp only [rank, seen, ShufflePoint.seen] <;> omega
  | reducePhase point =>
      have hle := point.rank_le
      simp only [rank, seen]
      omega
  | pushBack | firstBarrier | countElements | secondBarrier => simp [rank, seen]

theorem rank_atBarrier {point : Point K V} (hpoint : point.atBarrier = true) : point.rank ≤ 17 := by
  cases point <;> simp_all [atBarrier, rank]

theorem seen_eq_zero {point : Point K V} (hpoint : point.leading = false) : point.seen = 0 := by
  cases point <;> simp_all [leading, seen]

end Point

/-- The loop over the vectors does not pass the last one. -/
def Shuffle.Within {K V : Type} (s : Shuffle K V) : Prop :=
  ∀ maxKey temp index, s.point = .scan maxKey temp index → index ≤ s.beforeShuffle.length

namespace Shuffle

variable {K V : Type} {less : K → K → Bool} {s s' : Shuffle K V} {amount : Nat}

theorem Within.step (h : s.Within) (hstep : Step less s amount s') : s'.Within := by
  cases move_of_step hstep with
  | finish _ => nofun
  | start _ =>
      intro maxKey temp index hpoint
      cases hpoint
      exact Nat.zero_le _
  | push _ => nofun
  | skip hvec _ =>
      intro maxKey temp index hpoint
      cases hpoint
      exact (List.getElem?_eq_some_iff.mp hvec).1
  | take hvec _ =>
      intro maxKey temp index hpoint
      cases hpoint
      rw [List.length_set]
      exact (List.getElem?_eq_some_iff.mp hvec).1.le

/-- A step of the shuffle sees one more vector or pair, or is at the end of a round. -/
theorem rank_step (hwithin : s.Within) {n : Nat} (hlength : s.beforeShuffle.length ≤ n)
    (hstep : Step less s amount s') :
    s.afterShuffle.flatten.length + (n + 2) * s.afterShuffle.length +
        (Point.shufflePhase s.point).rank <
      s'.afterShuffle.flatten.length + (n + 2) * s'.afterShuffle.length +
        (Point.shufflePhase s'.point).rank := by
  cases move_of_step hstep with
  | finish _ => exact Nat.lt_succ_self _
  | start _ => exact Nat.lt_succ_self _
  | @push before after maxKey temp index _ =>
      have hindex : index ≤ n := (hwithin maxKey temp index rfl).trans hlength
      simp only [List.flatten_append, List.flatten_singleton, List.length_append,
        List.length_singleton, Point.rank, ShufflePoint.seen, Nat.mul_add]
      omega
  | skip _ _ =>
      simp only [Point.rank, ShufflePoint.seen]
      omega
  | take _ _ =>
      simp only [Point.rank, ShufflePoint.seen, List.length_append, List.length_singleton]
      omega

end Shuffle

/-! ### Steps of the barrier -/

namespace Barrier

variable {n : Nat} {b b' : Barrier n} {event : BarrierEvent n}

/-- How far the threads are in the function. -/
def rank (b : Barrier n) : Nat := total BarrierPoint.rank b.points

theorem rank_setPoint (b : Barrier n) (i : Fin n) (point : BarrierPoint) :
    (b.setPoint i point).rank + (b.points i).rank = b.rank + point.rank :=
  total_update BarrierPoint.rank b.points i point

theorem rank_le_broadcast (b : Barrier n) : b.rank ≤ b.broadcast.rank := by
  unfold rank total
  refine Finset.sum_le_sum fun i _ => ?_
  by_cases hwaiting : b.points i = .waiting
  · simp [broadcast, hwaiting, BarrierPoint.rank]
  · simp [broadcast, hwaiting]

theorem rank_lt_setPoint {i : Fin n} {point point' : BarrierPoint} (hi : b.points i = point)
    (hlt : point.rank < point'.rank) : b.rank < (b.setPoint i point').rank := by
  have hset := b.rank_setPoint i point'
  rw [hi] at hset
  omega

theorem rank_step (hstep : Step b event b') (hevent : event ≠ .unlock event.thread) :
    b.rank < b'.rank := by
  cases hstep with
  | unlock _ => exact absurd rfl hevent
  | @wakeAll i hi _ =>
      have hset := b.broadcast.rank_setPoint i .unlocking
      have hpoint : b.broadcast.points i = .locked := by simp [broadcast, hi]
      have hbroadcast := b.rank_le_broadcast
      rw [hpoint] at hset
      change b.rank < (b.broadcast.setPoint i .unlocking).rank
      simp only [BarrierPoint.rank] at hset
      omega
  | enter hi => exact rank_lt_setPoint hi (by decide)
  | lock hi _ => exact rank_lt_setPoint hi (by decide)
  | wait hi _ => exact rank_lt_setPoint hi (by decide)
  | wakeUp hi _ => exact rank_lt_setPoint hi (by decide)
  | relock hi _ => exact rank_lt_setPoint hi (by decide)

theorem rank_unlock {i : Fin n} (hstep : Step b (.unlock i) b') : b.rank = b'.rank + 5 := by
  cases hstep with
  | unlock hi =>
      have hset := b.rank_setPoint i .outside
      rw [hi] at hset
      exact hset.symm

end Barrier

/-! ### Steps of a job -/

namespace Job

variable {n : Nat} {InputPair K V OutputPair : Type} {client : Client InputPair K V OutputPair}
  {inputVec : List InputPair} {outputVec : List OutputPair} {s s' : Job n InputPair K V OutputPair}

/-- What is finished of the job. -/
def finishedWork (s : Job n InputPair K V OutputPair) : Nat :=
  3 * (s.mapCalls.length + s.reduceCalls.length) + s.outputVec.length +
    s.afterShuffle.flatten.length + (n + 2) * s.afterShuffle.length

/-- How far the job is. -/
def measure (s : Job n InputPair K V OutputPair) : Nat :=
  s.finishedWork + total (fun worker => worker.point.rank) s.workers + s.barrier.rank

theorem measure_lt {i : Fin n} {point : Point K V} {worker : Worker K V OutputPair}
    (hi : (s.workers i).point = point) (hworkers : s'.workers = update s.workers i worker)
    (hbarrier : s'.barrier = s.barrier)
    (hlt : s.finishedWork + point.rank < s'.finishedWork + worker.point.rank) :
    s.measure < s'.measure := by
  have htotal := total_update (fun worker : Worker K V OutputPair => worker.point.rank) s.workers i
    worker
  rw [hi] at htotal
  unfold measure
  rw [hworkers, hbarrier]
  omega

/-- A worker that moves on its own gets further. -/
theorem measure_own (hlength : s.beforeShuffle.length ≤ n)
    (hwithin : ∀ i point, (s.workers i).point = .shufflePhase point →
      Shuffle.Within ⟨s.beforeShuffle, s.afterShuffle, point⟩)
    {i : Fin n} (hstep : Step client inputVec s (.own i) s') : s.measure < s'.measure := by
  cases hstep with
  | mapLoad hi =>
      refine measure_lt hi rfl rfl (Nat.add_lt_add_left ?_ _)
      exact LoopPoint.rank_guarded _
  | mapNext hi =>
      refine measure_lt hi rfl rfl (Nat.add_lt_add_left ?_ _)
      change 1 < LoopPoint.rank _
      rw [LoopPoint.rank_claimed]
      exact Nat.lt_succ_self 1
  | map hi _ _ =>
      refine measure_lt hi rfl rfl ?_
      simp only [finishedWork, Point.rank, LoopPoint.rank, setWorker, List.length_append,
        List.length_singleton]
      omega
  | mapCount hi =>
      refine measure_lt hi rfl rfl (Nat.add_lt_add_left ?_ _)
      exact LoopPoint.rank_guarded _
  | sort hi _ => exact measure_lt hi rfl rfl (Nat.add_lt_add_left (Nat.lt_succ_self 2) _)
  | pushBack hi => exact measure_lt hi rfl rfl (Nat.add_lt_add_left (Nat.lt_succ_self 3) _)
  | countElements hi => exact measure_lt hi rfl rfl (Nat.add_lt_add_left (Nat.lt_succ_self 10) _)
  | @resetState _ stage _ hi =>
      refine measure_lt hi rfl rfl (Nat.add_lt_add_left ?_ _)
      simp only [Point.rank]
      split <;> omega
  | @resetNext _ stage hi =>
      refine measure_lt hi rfl rfl (Nat.add_lt_add_left ?_ _)
      cases stage <;> simp [Point.rank, behindReset]
  | @shuffle _ point amount shuffle hi hshuffle =>
      have hrank := Shuffle.rank_step (hwithin i point hi) hlength hshuffle
      refine measure_lt hi rfl rfl ?_
      simp only [finishedWork, goTo, setWorker] at hrank ⊢
      omega
  | countShuffled hi => exact measure_lt hi rfl rfl (Nat.add_lt_add_left (Nat.lt_succ_self 14) _)
  | reduceLoad hi =>
      refine measure_lt hi rfl rfl (Nat.add_lt_add_left ?_ _)
      exact Nat.add_lt_add_left (LoopPoint.rank_guarded _) 23
  | reduceNext hi =>
      refine measure_lt hi rfl rfl (Nat.add_lt_add_left ?_ _)
      change 24 < 23 + LoopPoint.rank _
      rw [LoopPoint.rank_claimed]
      exact Nat.lt_succ_self 24
  | reduce hi _ _ =>
      refine measure_lt hi rfl rfl ?_
      simp only [finishedWork, Point.rank, LoopPoint.rank, setWorker, List.length_append,
        List.length_singleton]
      omega
  | emit3 hi _ =>
      refine measure_lt hi rfl rfl ?_
      simp only [finishedWork, setWorker, hi, List.length_append, List.length_singleton]
      omega
  | reduceCount hi _ _ =>
      refine measure_lt hi rfl rfl (Nat.add_lt_add_left ?_ _)
      exact Nat.add_lt_add_left (LoopPoint.rank_guarded _) 23

/-- A worker that returns from the barrier gets further than the barrier goes back. -/
theorem measure_barrierReturn {i : Fin n} {barrier : Barrier n}
    (hi : (s.workers i).point.atBarrier = true) (hstep : s.barrier.Step (.unlock i) barrier) :
    s.measure <
      measure { s.goTo i ((s.workers i).point.behindBarrier i) with barrier := barrier } := by
  have htotal := total_update (fun worker : Worker K V OutputPair => worker.point.rank) s.workers i
    { s.workers i with point := (s.workers i).point.behindBarrier i }
  have hbarrier := Barrier.rank_unlock hstep
  have hfurther : (s.workers i).point.rank + 6 ≤ ((s.workers i).point.behindBarrier i).rank := by
    generalize (s.workers i).point = point at hi
    cases point with
    | firstBarrier =>
        by_cases hid : i.val = 0
        · simp [Point.behindBarrier, Point.rank, hid]
        · simp [Point.behindBarrier, Point.rank, hid]
    | secondBarrier => exact Nat.le_refl 23
    | _ => cases hi
  simp only [measure, finishedWork, goTo, setWorker] at htotal ⊢
  omega

theorem measure_step (hlength : s.beforeShuffle.length ≤ n)
    (hwithin : ∀ i point, (s.workers i).point = .shufflePhase point →
      Shuffle.Within ⟨s.beforeShuffle, s.afterShuffle, point⟩)
    {event : JobEvent n} (hstep : Step client inputVec s event s') : s.measure < s'.measure := by
  cases event with
  | own i => exact measure_own hlength hwithin hstep
  | barrier event =>
      cases hstep with
      | barrier _ hevent hbarrier => exact Nat.add_lt_add_left (Barrier.rank_step hbarrier hevent) _
      | barrierReturn hi hbarrier => exact measure_barrierReturn hi hbarrier

end Job

end OsExercises.MapReduce
