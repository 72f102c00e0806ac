import OsExercises.MapReduce.Rank
import OsExercises.Library.Termination
import Mathlib.Algebra.BigOperators.Ring.List

/-!
# A job comes to an end

The work of a job is bounded by its input and by what its client emits, so its runs are. And a job that
is not done can go on: the workers never all wait, the one that has the mutex of the barrier can move,
and an index that was claimed has an element.
-/

namespace OsExercises.MapReduce

open Function (update)

/-! ### The groups while the shuffle makes them -/

namespace Shuffle

variable {K V : Type} {less : K → K → Bool} {s : Shuffle K V}

/-- The largest key is the key of some last pair, and is equivalent to itself. -/
theorem not_stuck [IsStrictWeakOrder K (KeyLT less)] : ¬ s.Stuck less := by
  rintro ⟨key, hkey, hunmatched, -⟩
  obtain ⟨vec, hvec, back, hback, rfl⟩ := exists_of_maxKey hkey
  obtain ⟨index, hlt, hget⟩ := List.getElem_of_mem hvec
  have hother := hunmatched index hlt vec (List.getElem?_eq_some_iff.mpr ⟨hlt, hget⟩) back hback
  rw [sameKey_self] at hother
  cases hother

theorem filled_of_run [IsStrictWeakOrder K (KeyLT less)] {vecs : List (IntermediateVec K V)}
    {amounts : List Nat} (hrun : Run (Step less) ⟨vecs, [], .key⟩ amounts s) : s.Filled less := by
  apply hrun.invariant
  · exact ⟨by simp, by simp⟩
  · intro before amount after h hstep
    exact (h.step hstep).resolve_right not_stuck

theorem within_of_run {vecs : List (IntermediateVec K V)} {amounts : List Nat}
    (hrun : Run (Step less) ⟨vecs, [], .key⟩ amounts s) : s.Within := by
  apply hrun.invariant
  · nofun
  · intro before amount after h hstep
    exact h.step hstep

end Shuffle

/-! ### The mutex of the barrier -/

namespace Barrier

variable {n : Nat} {b b' : Barrier n} {event : BarrierEvent n}

/-- The thread that has the mutex is on its way to give it back. -/
def Held (b : Barrier n) : Prop :=
  ∀ i, b.mutex = some i → b.points i = .locked ∨ b.points i = .unlocking

theorem Held.new : (new n).Held := nofun

/-- The thread that moves has the mutex now, or nobody has. -/
theorem held_of_mutex {i : Fin n} (hmutex : ∀ j, b.mutex = some j → j = i)
    (hi : b.points i = .locked ∨ b.points i = .unlocking) : b.Held := by
  intro j hj
  rwa [hmutex j hj]

theorem Held.step (h : b.Held) (hstep : Step b event b') : b'.Held := by
  cases hstep with
  | @enter i hi =>
      intro j hj
      have hne : j ≠ i := by
        rintro rfl
        rcases h j hj with hpoint | hpoint
        all_goals
          rw [hi] at hpoint
          cases hpoint
      simpa [setPoint, hne] using h j hj
  | @lock i hi hfree =>
      exact held_of_mutex (i := i) (fun j hj => (Option.some.inj hj).symm) (by simp [setPoint])
  | wait _ _ =>
      intro j hj
      cases hj
  | @wakeAll i hi _ =>
      intro j hj
      by_cases heq : j = i
      · simp [setPoint, heq]
      · have hpoint := h j hj
        rcases hpoint with hpoint | hpoint
        all_goals simp [setPoint, broadcast, heq, hpoint]
  | @wakeUp i hi hfree =>
      exact held_of_mutex (i := i) (fun j hj => (Option.some.inj hj).symm) (by simp [setPoint])
  | @relock i hi hfree =>
      exact held_of_mutex (i := i) (fun j hj => (Option.some.inj hj).symm) (by simp [setPoint])
  | unlock _ =>
      intro j hj
      cases hj

/-- A thread that has the mutex can move. -/
theorem exists_step_of_held {i : Fin n} (hi : b.points i = .locked ∨ b.points i = .unlocking) :
    ∃ event b', Step b event b' ∧ event.thread = i ∧ ∀ j, event ≠ .wakeUp j := by
  rcases hi with hi | hi
  · by_cases hlast : b.count + 1 < n
    · exact ⟨.count i, _, .wait hi hlast, rfl, nofun⟩
    · exact ⟨.count i, _, .wakeAll hi hlast, rfl, nofun⟩
  · exact ⟨.unlock i, _, .unlock hi, rfl, nofun⟩

/-- If a thread does not wait, it can move, or the one that has the mutex can. -/
theorem exists_step (h : b.Held) {i : Fin n} (hi : b.points i ≠ .waiting) :
    ∃ event b', Step b event b' ∧ (∀ j, event ≠ .wakeUp j) ∧
      (event.thread = i ∨ b.points event.thread ≠ .outside) := by
  have hholder : ∀ j, b.mutex = some j → ∃ event b', Step b event b' ∧ (∀ k, event ≠ .wakeUp k) ∧
      (event.thread = i ∨ b.points event.thread ≠ .outside) := by
    intro j hj
    obtain ⟨event, b', hstep, rfl, hevent⟩ := exists_step_of_held (h j hj)
    refine ⟨event, b', hstep, hevent, Or.inr ?_⟩
    rcases h _ hj with hpoint | hpoint
    all_goals
      rw [hpoint]
      nofun
  cases hpoint : b.points i with
  | outside => exact ⟨.enter i, _, .enter hpoint, nofun, Or.inl rfl⟩
  | locking =>
      cases hmutex : b.mutex with
      | none => exact ⟨.lock i, _, .lock hpoint hmutex, nofun, Or.inl rfl⟩
      | some j => exact hholder j hmutex
  | woken =>
      cases hmutex : b.mutex with
      | none => exact ⟨.relock i, _, .relock hpoint hmutex, nofun, Or.inl rfl⟩
      | some j => exact hholder j hmutex
  | waiting => exact absurd hpoint hi
  | locked =>
      obtain ⟨event, b', hstep, hthread, hevent⟩ := exists_step_of_held (Or.inl hpoint)
      exact ⟨event, b', hstep, hevent, Or.inl hthread⟩
  | unlocking =>
      obtain ⟨event, b', hstep, hthread, hevent⟩ := exists_step_of_held (Or.inr hpoint)
      exact ⟨event, b', hstep, hevent, Or.inl hthread⟩

end Barrier

/-! ### How much work there is -/

/-- The functions of the client return, and emit so many pairs at most: `map` for a pair of the input,
`reduce` for each pair of its vector, which is not empty. -/
structure Client.Answers {InputPair K V OutputPair : Type} (client : Client InputPair K V OutputPair)
    (inputVec : List InputPair) (mapped reduced : Nat) : Prop where
  map : ∀ pair ∈ inputVec, ∃ emitted, client.map pair emitted
  reduce : ∀ vec, vec ≠ [] → ∃ emitted, client.reduce vec emitted
  map_le : ∀ pair ∈ inputVec, ∀ emitted, client.map pair emitted → emitted.length ≤ mapped
  reduce_le : ∀ vec emitted, client.reduce vec emitted → emitted.length ≤ reduced * vec.length

namespace Job

variable {n : Nat} {InputPair K V OutputPair : Type} {client : Client InputPair K V OutputPair}
  {inputVec : List InputPair} {outputVec : List OutputPair} {s s' : Job n InputPair K V OutputPair}
  {first : Fin n} {count mapped reduced : Nat}

theorem calls_le {stage : Stage} {size : Nat} {weight : Nat → Nat} {l : WorkLoop n}
    {claimed done : Nat} (h : l.Claims stage size weight claimed done) :
    (l.calls : Multiset Nat) ≤ Multiset.range size :=
  calc (l.calls : Multiset Nat)
    _ ≤ l.calls + total LoopPoint.inHand l.points := Multiset.le_add_right _ _
    _ = Multiset.range (min claimed size) := h.calls
    _ ≤ Multiset.range size := Multiset.range_le.mpr (min_le_right _ _)

theorem length_le_of_range {indices : List Nat} {size : Nat}
    (hle : (indices : Multiset Nat) ≤ Multiset.range size) : indices.length ≤ size := by
  have hcard := Multiset.card_le_card hle
  rwa [Multiset.coe_card, Multiset.card_range] at hcard

/-- What the stages say about the calls and the groups. -/
structure Bounded (client : Client InputPair K V OutputPair) (inputVec : List InputPair)
    (s : Job n InputPair K V OutputPair) : Prop where
  mapCalls : s.mapCalls.length ≤ inputVec.length
  reduceCalls : (s.reduceCalls.map Call.index : Multiset Nat) ≤ Multiset.range s.afterShuffle.length
  reduced : ∀ call ∈ s.reduceCalls,
    s.afterShuffle[call.index]? = some call.argument ∧ client.reduce call.argument call.emitted
  filled : ∀ vec ∈ s.afterShuffle, vec ≠ []

theorem Mapped.length_le (h : s.Mapped inputVec) : s.mapCalls.length ≤ inputVec.length := by
  have hle := length_le_of_range h.le
  rwa [List.length_map] at hle

theorem Bounded.of_calls_nil (hmapCalls : s.mapCalls.length ≤ inputVec.length)
    (hreduceCalls : s.reduceCalls = []) (hfilled : ∀ vec ∈ s.afterShuffle, vec ≠ []) :
    Bounded client inputVec s where
  mapCalls := hmapCalls
  reduceCalls := by
    rw [hreduceCalls]
    exact Multiset.zero_le _
  reduced := by simp [hreduceCalls]
  filled := hfilled

theorem Mapping.bounded (h : Mapping client inputVec s count) : Bounded client inputVec s := by
  obtain ⟨claimed, hclaims⟩ := h.claims
  have hle := length_le_of_range (calls_le hclaims)
  rw [mapLoop, List.length_map] at hle
  exact .of_calls_nil hle h.reduceCalls (by simp [h.afterShuffle])

theorem Shuffling.bounded [IsStrictWeakOrder K (KeyLT client.less)] {point : ShufflePoint K V}
    (h : Shuffling client inputVec s point count) : Bounded client inputVec s := by
  obtain ⟨vecs, amounts, hrun, -⟩ := h.run
  exact .of_calls_nil h.mapped.length_le h.reduceCalls (Shuffle.filled_of_run hrun).1

theorem Reducing.bounded (h : Reducing client inputVec s count) : Bounded client inputVec s where
  mapCalls := h.mapped.length_le
  reduceCalls := by
    obtain ⟨claimed, hclaims⟩ := h.claims
    exact calls_le hclaims
  reduced := h.calls
  filled := h.filled

theorem StageInv.bounded [IsStrictWeakOrder K (KeyLT client.less)] {point : Point K V}
    (h : StageInv client inputVec s count point) : Bounded client inputVec s := by
  cases point with
  | mapPhase _ | pushBack | firstBarrier | countElements => exact Mapping.bounded h
  | resetState stage _ =>
      cases stage with
      | shuffle => exact Mapping.bounded h.1
      | reduce => exact Shuffling.bounded h.1
      | undefined | map => exact h.elim
  | resetNext stage =>
      cases stage with
      | shuffle => exact Shuffling.bounded h
      | reduce => exact .of_calls_nil h.1.mapped.length_le h.2.1 h.1.filled
      | undefined | map => exact h.elim
  | shufflePhase point => exact Shuffling.bounded h
  | secondBarrier | reducePhase _ => exact Reducing.bounded h

/-- The pairs that `map` emits. -/
theorem Bounded.pairs_le (h : Bounded client inputVec s) (hbooks : Books client inputVec outputVec s)
    (hclient : client.Answers inputVec mapped reduced) :
    s.intermediatePairs.length ≤ inputVec.length * mapped := by
  rw [intermediatePairs, List.length_flatMap]
  have hemitted : ∀ amount ∈ s.mapCalls.map fun call => call.emitted.length, amount ≤ mapped := by
    intro amount hamount
    obtain ⟨call, hcall, rfl⟩ := List.mem_map.mp hamount
    obtain ⟨hargument, hmap⟩ := hbooks.mapCalls call hcall
    exact hclient.map_le _ (List.mem_of_getElem? hargument) _ hmap
  calc (s.mapCalls.map fun call => call.emitted.length).sum
    _ ≤ (s.mapCalls.map fun call => call.emitted.length).length * mapped :=
        List.sum_le_card_nsmul _ _ hemitted
    _ = s.mapCalls.length * mapped := by rw [List.length_map]
    _ ≤ inputVec.length * mapped := Nat.mul_le_mul_right _ h.mapCalls

/-- The pairs that `reduce` emits. A group is reduced once, so they are bounded by the pairs. -/
theorem Bounded.outputs_le (h : Bounded client inputVec s)
    (hclient : client.Answers inputVec mapped reduced) :
    s.outputPairs.length ≤ reduced * s.afterShuffle.flatten.length := by
  have hemitted : ∀ call ∈ s.reduceCalls,
      call.emitted.length ≤ reduced * weightAt s.afterShuffle call.index := by
    intro call hcall
    obtain ⟨hargument, hreduce⟩ := h.reduced call hcall
    have hweight : weightAt s.afterShuffle call.index = call.argument.length := by
      rw [weightAt, List.getD_eq_getElem?_getD, hargument, Option.getD_some]
    rw [hweight]
    exact hclient.reduce_le _ _ hreduce
  have hweights := WorkLoop.weightOf_le (weightAt s.afterShuffle) h.reduceCalls
  rw [Multiset.map_coe, Multiset.sum_coe, List.map_map, weightOf_weightAt] at hweights
  rw [outputPairs, List.length_flatMap]
  calc (s.reduceCalls.map fun call => call.emitted.length).sum
    _ ≤ (s.reduceCalls.map fun call => reduced * weightAt s.afterShuffle call.index).sum :=
        List.sum_le_sum hemitted
    _ = reduced * (s.reduceCalls.map (weightAt s.afterShuffle ∘ Call.index)).sum :=
        List.sum_map_mul_left _ _ _
    _ ≤ reduced * s.afterShuffle.flatten.length := Nat.mul_le_mul_left _ hweights

theorem beforeShuffle_length_le (h : InStep s) : s.beforeShuffle.length ≤ n := by
  have hle := countParties_le
    (fun worker : Worker K V OutputPair => worker.point.pushed = true) s.workers
  rwa [← h.pushes, Fintype.card_fin] at hle

namespace JobInv

variable (h : JobInv client inputVec outputVec first s count) (hfirst : first.val = 0)
include h hfirst

theorem eq_first {i : Fin n} (hleading : (s.workers i).point.leading = true) : i = first :=
  Fin.ext ((h.inStep.leader i hleading).trans hfirst.symm)

theorem within {i : Fin n} {point : ShufflePoint K V}
    (hi : (s.workers i).point = .shufflePhase point) :
    Shuffle.Within ⟨s.beforeShuffle, s.afterShuffle, point⟩ := by
  obtain rfl := h.eq_first hfirst (by rw [hi]; rfl)
  have hstage := h.stage
  rw [hi] at hstage
  obtain ⟨vecs, amounts, hrun, -⟩ := Shuffling.run hstage
  exact Shuffle.within_of_run hrun

/-- What the shuffle has seen in a round it has taken from the pairs, or it is the place of a vector. -/
theorem seen_le :
    s.afterShuffle.flatten.length + (s.workers first).point.seen ≤ s.intermediatePairs.length + n := by
  have hlength := h.books.length_eq
  cases hpoint : (s.workers first).point with
  | shufflePhase point =>
      have htaken := h.books.taken_le hpoint
      cases point with
      | scan maxKey temp index =>
          have hindex := h.within hfirst hpoint maxKey temp index rfl
          have hbefore := beforeShuffle_length_le h.inStep
          simp only [ShufflePoint.temp, Point.seen, ShufflePoint.seen] at htaken hindex ⊢
          omega
      | key | out =>
          simp only [Point.seen, ShufflePoint.seen]
          omega
  | _ =>
      simp only [Point.seen]
      omega

theorem ranks_le :
    total (fun worker => worker.point.rank) s.workers + s.barrier.rank ≤
      25 * n + (s.workers first).point.seen := by
  have hone : ∀ i, (s.workers i).point.rank + (s.barrier.points i).rank ≤
      25 + (s.workers i).point.seen := by
    intro i
    cases hat : (s.workers i).point.atBarrier with
    | true =>
        have hrank := Point.rank_atBarrier hat
        have hbarrier := (s.barrier.points i).rank_le
        omega
    | false =>
        rw [h.inStep.outside i hat]
        exact (s.workers i).point.rank_le
  have hseen : ∑ i, (s.workers i).point.seen = (s.workers first).point.seen := by
    apply Finset.sum_eq_single first
    · intro i _ hne
      apply Point.seen_eq_zero
      by_contra hleading
      exact hne (h.eq_first hfirst (Bool.eq_true_of_not_eq_false hleading))
    · exact fun habsent => absurd (Finset.mem_univ first) habsent
  calc total (fun worker => worker.point.rank) s.workers + s.barrier.rank
    _ = ∑ i, ((s.workers i).point.rank + (s.barrier.points i).rank) :=
        Finset.sum_add_distrib.symm
    _ ≤ ∑ i, (25 + (s.workers i).point.seen) := Finset.sum_le_sum fun i _ => hone i
    _ = 25 * n + (s.workers first).point.seen := by
        rw [Finset.sum_add_distrib, hseen, Finset.sum_const, Finset.card_univ, Fintype.card_fin,
          nsmul_eq_mul, Nat.cast_id, Nat.mul_comm]

/-- The work of a job. -/
theorem measure_le (hbounded : Bounded client inputVec s)
    (hclient : client.Answers inputVec mapped reduced) :
    s.measure ≤ outputVec.length + 26 * n + 3 * inputVec.length +
      (n + 6 + reduced) * (inputVec.length * mapped) := by
  have hpairs := hbounded.pairs_le h.books hclient
  have hseen := h.seen_le hfirst
  have hranks := h.ranks_le hfirst
  have hmapCalls := hbounded.mapCalls
  have hreduceCalls := length_le_of_range hbounded.reduceCalls
  rw [List.length_map] at hreduceCalls
  have hgroups := length_le_flatten hbounded.filled
  have hflatten : s.afterShuffle.flatten.length ≤ s.intermediatePairs.length := by
    have hlength := h.books.length_eq
    omega
  obtain ⟨grown, hgrown, hbalance⟩ := h.books.outputs
  have houtputs : grown.length ≤ reduced * (inputVec.length * mapped) := by
    have hcard := congrArg Multiset.card hbalance
    rw [Multiset.card_add, Multiset.coe_card, Multiset.coe_card] at hcard
    calc grown.length
      _ ≤ s.outputPairs.length := by omega
      _ ≤ reduced * s.afterShuffle.flatten.length := hbounded.outputs_le hclient
      _ ≤ reduced * (inputVec.length * mapped) := Nat.mul_le_mul_left _ (hflatten.trans hpairs)
  have hmiddle : (n + 2) * s.afterShuffle.length ≤ (n + 2) * (inputVec.length * mapped) :=
    Nat.mul_le_mul_left _ (hgroups.trans (hflatten.trans hpairs))
  rw [measure, finishedWork, hgrown, List.length_append]
  simp only [Nat.add_mul] at hmiddle ⊢
  omega

end JobInv

/-! ### No deadlock -/

theorem exists_sorts (less : K → K → Bool) (vec : IntermediateVec K V) :
    ∃ vec', Sorts less vec vec' := by
  refine ⟨vec.mergeSort fun p q => !less q.1 p.1, List.mergeSort_perm _ _, fun horder => ?_⟩
  have htrans : ∀ p q r : K × V, (!less q.1 p.1) = true → (!less r.1 q.1) = true →
      (!less r.1 p.1) = true := by
    intro p q r hpq hqr
    have hle : ¬ KeyLT less r.1 p.1 :=
      not_lt_trans (by simpa [KeyLT] using hpq) (by simpa [KeyLT] using hqr)
    simpa [KeyLT] using hle
  have htotal : ∀ p q : K × V, (!less q.1 p.1 || !less p.1 q.1) = true := by
    intro p q
    by_contra hboth
    simp only [Bool.or_eq_true, Bool.not_eq_true', not_or, Bool.not_eq_false] at hboth
    exact asymm_of (KeyLT less) hboth.1 hboth.2
  refine (List.pairwise_mergeSort htrans htotal vec).imp fun hle hless => ?_
  rw [show less _ _ = true from hless] at hle
  cases hle

theorem exists_shuffle_step (less : K → K → Bool) {s : Shuffle K V} (hpoint : s.point ≠ .out) :
    ∃ amount s', Shuffle.Step less s amount s' := by
  have hsome : (s.next less).isSome = true := by
    unfold Shuffle.next
    split
    · split <;> rfl
    · split
      · rfl
      · split
        · rfl
        · split <;> rfl
    · exact absurd ‹_› hpoint
  obtain ⟨⟨amount, s'⟩, hnext⟩ := Option.isSome_iff_exists.mp hsome
  exact ⟨amount, s', hnext⟩

/-- An index that is claimed or counted has an element. -/
theorem lt_of_claimed {stage : Stage} {size : Nat} {weight : Nat → Nat} {l : WorkLoop n}
    {claimed done : Nat} (h : l.Claims stage size weight claimed done) {i : Fin n} {index : Nat}
    (hi : l.points i = .call index ∨ l.points i = .count index) : index < size := by
  have hmem : index ∈ (l.calls : Multiset Nat) + total LoopPoint.inHand l.points := by
    rcases hi with hi | hi
    · have hle := Finset.single_le_sum (fun j _ => Multiset.zero_le (l.points j).inHand)
        (Finset.mem_univ i)
      have hhand : index ∈ (l.points i).inHand := by simp [hi, LoopPoint.inHand]
      exact Multiset.mem_add.mpr (Or.inr (Multiset.mem_of_le hle hhand))
    · exact Multiset.mem_add.mpr (Or.inl (h.counting i index hi))
  rw [h.calls, Multiset.mem_range] at hmem
  exact hmem.trans_le (min_le_right _ _)

namespace JobInv

variable (h : JobInv client inputVec outputVec first s count)
include h

theorem input_of_claimed {i : Fin n} {index : Nat}
    (hi : (s.workers i).point = .mapPhase (.call index)) :
    ∃ pair, inputVec[index]? = some pair := by
  have hfirst_rounds : (s.workers first).point.rounds = 0 := by
    by_contra hrounds
    have hpushed := h.inStep.all_pushed (Nat.one_le_iff_ne_zero.mpr hrounds) i
    rw [hi] at hpushed
    cases hpushed
  obtain ⟨claimed, hclaims⟩ := ((stageInv_iff_mapping hfirst_rounds).mp h.stage).claims
  have hplace : s.mapLoop.points i = .call index := congrArg Point.mapPoint hi
  exact ⟨_, List.getElem?_eq_getElem (lt_of_claimed hclaims (Or.inl hplace))⟩

theorem group_of_claimed {i : Fin n} {point : LoopPoint} {index : Nat}
    (hi : (s.workers i).point = .reducePhase point)
    (hpoint : point = .call index ∨ point = .count index) :
    ∃ vec, s.afterShuffle[index]? = some vec := by
  have hbehind : (s.workers first).point = .secondBarrier ∨
      ∃ inner, (s.workers first).point = .reducePhase inner :=
    h.inStep.all_behind (i := i) (by rw [hi]; exact Nat.le_refl 2) first
  obtain ⟨claimed, hclaims⟩ := ((stageInv_iff_reducing hbehind).mp h.stage).claims
  have hplace : s.reduceLoop.points i = point := congrArg Point.reducePoint hi
  rw [← hplace] at hpoint
  exact ⟨_, List.getElem?_eq_getElem (lt_of_claimed hclaims hpoint)⟩

/-- A worker that is neither in the barrier nor at its end can move. -/
theorem exists_own [IsStrictWeakOrder K (KeyLT client.less)]
    (hclient : client.Answers inputVec mapped reduced) {i : Fin n}
    (hat : (s.workers i).point.atBarrier = false) (hi : (s.workers i).point.finished = false) :
    ∃ s', Step client inputVec s (.own i) s' := by
  cases hpoint : (s.workers i).point with
  | mapPhase point =>
      cases point with
      | load => exact ⟨_, .mapLoad hpoint⟩
      | next => exact ⟨_, .mapNext hpoint⟩
      | call index =>
          obtain ⟨pair, hpair⟩ := h.input_of_claimed hpoint
          obtain ⟨emitted, hmap⟩ := hclient.map pair (List.mem_of_getElem? hpair)
          exact ⟨_, .map hpoint hpair hmap⟩
      | count index => exact ⟨_, .mapCount hpoint⟩
      | out =>
          obtain ⟨vec, hsorts⟩ := exists_sorts client.less (s.workers i).intermediateVec
          exact ⟨_, .sort hpoint hsorts⟩
  | pushBack => exact ⟨_, .pushBack hpoint⟩
  | firstBarrier | secondBarrier =>
      rw [hpoint] at hat
      cases hat
  | countElements => exact ⟨_, .countElements hpoint⟩
  | resetState stage totalElements => exact ⟨_, .resetState hpoint⟩
  | resetNext stage => exact ⟨_, .resetNext hpoint⟩
  | shufflePhase point =>
      by_cases hout : point = .out
      · rw [hout] at hpoint
        exact ⟨_, .countShuffled hpoint⟩
      · obtain ⟨amount, shuffle, hshuffle⟩ := exists_shuffle_step client.less
          (s := ⟨s.beforeShuffle, s.afterShuffle, point⟩) hout
        exact ⟨_, .shuffle hpoint hshuffle⟩
  | reducePhase point =>
      cases point with
      | load => exact ⟨_, .reduceLoad hpoint⟩
      | next => exact ⟨_, .reduceNext hpoint⟩
      | call index =>
          obtain ⟨vec, hvec⟩ := h.group_of_claimed hpoint (Or.inl rfl)
          have hfilled := h.stage.bounded.filled vec (List.mem_of_getElem? hvec)
          obtain ⟨emitted, hreduce⟩ := hclient.reduce vec hfilled
          exact ⟨_, .reduce hpoint hvec hreduce⟩
      | count index =>
          obtain ⟨vec, hvec⟩ := h.group_of_claimed hpoint (Or.inr rfl)
          cases htoEmit : (s.workers i).toEmit with
          | nil => exact ⟨_, .reduceCount hpoint htoEmit hvec⟩
          | cons pair rest => exact ⟨_, .emit3 hpoint htoEmit⟩
      | out =>
          rw [hpoint] at hi
          cases hi

/-- A job that is not done goes on. -/
theorem exists_step [IsStrictWeakOrder K (KeyLT client.less)] (hheld : s.barrier.Held)
    (hclient : client.Answers inputVec mapped reduced)
    (hdone : ¬ s.Done) : ∃ event s', Meeting (Step client inputVec) NotEarly s event s' := by
  obtain ⟨i, hi, hwaiting⟩ : ∃ i, (s.workers i).point.finished = false ∧
      s.barrier.points i ≠ .waiting := by
    by_contra hnone
    push Not at hnone
    apply hdone
    intro i
    by_contra hnot
    have hunfinished : (s.workers i).point.finished = false :=
      Bool.eq_false_of_not_eq_true fun hfinished => hnot (Point.eq_of_finished hfinished)
    exact h.inStep.not_all_waiting hunfinished hnone
  cases hat : (s.workers i).point.atBarrier with
  | false =>
      obtain ⟨s', hstep⟩ := h.exists_own hclient hat hi
      exact ⟨_, s', hstep, nofun⟩
  | true =>
      obtain ⟨event, barrier, hstep, hevent, hthread⟩ := Barrier.exists_step hheld hwaiting
      have hthread_at : (s.workers event.thread).point.atBarrier = true := by
        rcases hthread with heq | hinside
        · rwa [heq]
        · by_contra hout
          exact hinside (h.inStep.outside _ (Bool.eq_false_of_not_eq_true hout))
      have hearly : ∀ j, JobEvent.barrier event ≠ .barrier (.wakeUp j) :=
        fun j heq => hevent j (JobEvent.barrier.inj heq)
      by_cases hunlock : event = .unlock event.thread
      · rw [hunlock] at hstep
        exact ⟨_, _, .barrierReturn hthread_at hstep, nofun⟩
      · exact ⟨_, _, .barrier hthread_at hunlock hstep, hearly⟩

end JobInv

/-! ### Runs that come to an end -/

theorem held_step {event : JobEvent n} (hheld : s.barrier.Held)
    (hstep : Step client inputVec s event s') : s'.barrier.Held := by
  cases hstep with
  | barrier _ _ hbarrier => exact Barrier.Held.step hheld hbarrier
  | barrierReturn _ hbarrier => exact Barrier.Held.step hheld hbarrier
  | _ => exact hheld

/-- What holds in every state of a job whose client answers. -/
structure Bound (client : Client InputPair K V OutputPair) (inputVec : List InputPair)
    (outputVec : List OutputPair) (first : Fin n) (mapped : Nat)
    (s : Job n InputPair K V OutputPair) : Prop where
  inv : ∃ count, JobInv client inputVec outputVec first s count
  held : s.barrier.Held
  pairs : s.intermediatePairs.length ≤ inputVec.length * mapped

section

variable [IsStrictWeakOrder K (KeyLT client.less)] (hfirst : first.val = 0)
  (hclient : client.Answers inputVec mapped reduced)
include hfirst hclient

theorem Bound.step (h : Bound client inputVec outputVec first mapped s) (hworkers : n < 2 ^ 31)
    (hsize : inputVec.length < 2 ^ 31) (hfew : inputVec.length * mapped < 2 ^ 31)
    {event : JobEvent n} (hstep : Meeting (Step client inputVec) NotEarly s event s') :
    Bound client inputVec outputVec first mapped s' ∧ s.measure < s'.measure := by
  obtain ⟨count, hinv⟩ := h.inv
  obtain ⟨count', hinv', -⟩ :=
    hinv.step hfirst hworkers hsize (h.pairs.trans_lt hfew) hstep.1 hstep.2
  constructor
  · exact ⟨⟨count', hinv'⟩, held_step h.held hstep.1, hinv'.stage.bounded.pairs_le hinv'.books hclient⟩
  · exact measure_step (beforeShuffle_length_le hinv.inStep) (fun _ _ => hinv.within hfirst) hstep.1

variable (hworkers : n < 2 ^ 31) (hsize : inputVec.length < 2 ^ 31)
  (hfew : inputVec.length * mapped < 2 ^ 31) {events : List (JobEvent n)}
  (hrun : Run (Meeting (Step client inputVec) NotEarly) (create n K V inputVec outputVec) events s)
include hworkers hsize hfew hrun

theorem bound_of_run : Bound client inputVec outputVec first mapped s ∧
    events.length + outputVec.length ≤ s.measure := by
  have hstart : Bound client inputVec outputVec first mapped (create n K V inputVec outputVec) :=
    ⟨⟨0, JobInv.create hsize⟩, Barrier.Held.new, Nat.zero_le _⟩
  have hmeasure : (create n K V inputVec outputVec).measure = outputVec.length := by
    have hworkers_zero : total (fun worker : Worker K V OutputPair => worker.point.rank)
        (create n K V inputVec outputVec).workers = 0 := total_eq_zero fun _ => rfl
    have hbarrier_zero : (create n K V inputVec outputVec).barrier.rank = 0 :=
      total_eq_zero fun _ => rfl
    rw [measure, hworkers_zero, hbarrier_zero]
    simp [finishedWork, create]
  constructor
  · exact hrun.invariant hstart fun s event s' h hstep =>
      (h.step hfirst hclient hworkers hsize hfew hstep).1
  · rw [← hmeasure]
    exact hrun.length_add_le (Bound client inputVec outputVec first mapped) hstart
      (fun s event s' h hstep => (h.step hfirst hclient hworkers hsize hfew hstep).1)
      (fun s event s' h hstep => (h.step hfirst hclient hworkers hsize hfew hstep).2)

theorem length_le_of_run : events.length ≤
    26 * n + 3 * inputVec.length + (n + 6 + reduced) * (inputVec.length * mapped) := by
  obtain ⟨⟨⟨count, hinv⟩, -, -⟩, hmeasure⟩ := bound_of_run hfirst hclient hworkers hsize hfew hrun
  have hle := hinv.measure_le hfirst hinv.stage.bounded hclient
  omega

theorem done_or_step_of_run :
    s.Done ∨ ∃ event s', Meeting (Step client inputVec) NotEarly s event s' := by
  obtain ⟨⟨⟨count, hinv⟩, hheld, -⟩, -⟩ := bound_of_run hfirst hclient hworkers hsize hfew hrun
  exact or_iff_not_imp_left.mpr fun hdone => hinv.exists_step hheld hclient hdone

theorem exists_done_of_run :
    ∃ rest s', Run (Meeting (Step client inputVec) NotEarly) s rest s' ∧ s'.Done :=
  hrun.exists_final (fun _ _ hrun => length_le_of_run hfirst hclient hworkers hsize hfew hrun)
    (fun _ _ hrun => done_or_step_of_run hfirst hclient hworkers hsize hfew hrun)

end

theorem not_step_of_done (hdone : s.Done) (event : JobEvent n) (s' : Job n InputPair K V OutputPair) :
    ¬ Step client inputVec s event s' := by
  intro hstep
  cases hstep with
  | barrier hat _ _ | barrierReturn hat _ =>
      rw [hdone] at hat
      cases hat
  | mapLoad hi | mapNext hi | map hi _ _ | mapCount hi | sort hi _ | pushBack hi | countElements hi
  | resetState hi | resetNext hi | reduceLoad hi | reduceNext hi | reduce hi _ _ | emit3 hi _
  | reduceCount hi _ _ | countShuffled hi =>
      rw [hdone] at hi
      cases hi
  | shuffle hi _ =>
      rw [hdone] at hi
      cases hi

/-- **A job ends.** A run is not longer than the work there is. It cannot go on exactly when all
workers have returned, and every run can be carried on to there. -/
theorem job_ends (hn : 1 ≤ n) (hworkers : n < 2 ^ 31) (client : Client InputPair K V OutputPair)
    [IsStrictWeakOrder K (KeyLT client.less)] {inputVec : List InputPair}
    (hsize : inputVec.length < 2 ^ 31) (hclient : client.Answers inputVec mapped reduced)
    (hfew : inputVec.length * mapped < 2 ^ 31) (outputVec : List OutputPair)
    {events : List (JobEvent n)} {s : Job n InputPair K V OutputPair}
    (hrun : Run (Meeting (Step client inputVec) NotEarly) (create n K V inputVec outputVec) events s) :
    events.length ≤ 26 * n + 3 * inputVec.length + (n + 6 + reduced) * (inputVec.length * mapped) ∧
    (s.Done ↔ ∀ event s', ¬ Meeting (Step client inputVec) NotEarly s event s') ∧
    ∃ rest s', Run (Meeting (Step client inputVec) NotEarly) s rest s' ∧ s'.Done := by
  have hfirst : (⟨0, hn⟩ : Fin n).val = 0 := rfl
  refine ⟨length_le_of_run hfirst hclient hworkers hsize hfew hrun,
    ⟨fun hdone event s' hstep => not_step_of_done hdone event s' hstep.1, fun hstuck => ?_⟩,
    exists_done_of_run hfirst hclient hworkers hsize hfew hrun⟩
  have hnext := done_or_step_of_run hfirst hclient hworkers hsize hfew hrun
  exact hnext.resolve_right fun ⟨event, s', hstep⟩ => hstuck event s' hstep

theorem answers_echoClient (inputVec : List Nat) : echoClient.Answers inputVec 1 1 where
  map pair _ := ⟨_, rfl⟩
  reduce vec _ := ⟨_, rfl⟩
  map_le := by
    rintro pair _ emitted rfl
    exact Nat.le_refl 1
  reduce_le := by
    rintro vec emitted rfl
    rw [List.length_map, Nat.one_mul]

/-- Two workers and three pairs of input: they are done after at most 88 steps. -/
theorem job_ends_three : ∃ rest, ∃ s' : Job 2 Nat Nat Nat Nat, rest.length ≤ 88 ∧
    Run (Meeting (Step echoClient [7, 5, 7]) NotEarly) (create 2 Nat Nat [7, 5, 7] []) rest s' ∧
      s'.Done := by
  have horder : IsStrictWeakOrder Nat (KeyLT echoClient.less) := isStrictWeakOrder_nat
  have hanswers := answers_echoClient [7, 5, 7]
  obtain ⟨-, -, rest, s', hrest, hdone⟩ := job_ends (by decide) (by decide) echoClient (by decide)
    hanswers (by decide) [] (.start : Run (Meeting (Step echoClient [7, 5, 7]) NotEarly)
      (create 2 Nat Nat [7, 5, 7] []) [] _)
  obtain ⟨hlength, -⟩ := job_ends (by decide) (by decide) echoClient (by decide) hanswers (by decide)
    [] hrest
  exact ⟨rest, s', hlength, hrest, hdone⟩

end Job

end OsExercises.MapReduce
