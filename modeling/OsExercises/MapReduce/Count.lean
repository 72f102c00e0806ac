import OsExercises.MapReduce.Correctness
import OsExercises.MapReduce.Progress
import OsExercises.MapReduce.Termination

/-!
# What the count of a job counts

The count of the word lags behind the workers: a call of the client is counted only after it has
returned. So the elements that are counted, and those of the calls that are not counted yet, are the
elements that were given to the client. And a count that has reached its total in the last stage means
that nothing is missing from `outputVec`.
-/

namespace OsExercises.MapReduce

open Function (update)

namespace WorkLoop.Claims

variable {n : Nat} {stage : Stage} {size : Nat} {weight : Nat → Nat} {l : WorkLoop n}
  {claimed done : Nat}

/-- When all elements are counted, each was given to the client, and no call is uncounted. -/
theorem counted_all (h : Claims stage size weight l claimed done)
    (hdone : done = weightOf weight size) (hpos : ∀ index < size, 0 < weight index) :
    (l.calls : Multiset Nat) = Multiset.range size ∧
      ∀ i, (∀ index, l.points i ≠ .count index) ∧ ∀ index, l.points i ≠ .call index := by
  have hle : (l.calls : Multiset Nat) ≤ Multiset.range size := Job.calls_le h
  have hcounted := h.counted
  have hweights := weightOf_le weight hle
  have hcalls : (l.calls : Multiset Nat) = Multiset.range size := by
    by_contra hne
    -- an element that was not given to the client has a weight, and the sum lacks it
    obtain ⟨index, hindex⟩ := Multiset.lt_iff_cons_le.mp (lt_of_le_of_ne hle hne)
    have hmem := Multiset.mem_range.mp (Multiset.mem_of_le hindex (Multiset.mem_cons_self _ _))
    have hmore := weightOf_le weight hindex
    rw [Multiset.map_cons, Multiset.sum_cons] at hmore
    have hweight := hpos index hmem
    omega
  refine ⟨hcalls, fun i => ⟨fun index hi => ?_, fun index hi => ?_⟩⟩
  · have hindex := Job.lt_of_claimed h (Or.inr hi)
    have hone := le_total (LoopPoint.uncounted weight) l.points i
    rw [hi] at hone
    have hweight := hpos index hindex
    simp only [LoopPoint.uncounted] at hone
    omega
  · have hone : (l.points i).inHand ≤ total LoopPoint.inHand l.points :=
      Finset.single_le_sum (fun j _ => Multiset.zero_le (l.points j).inHand) (Finset.mem_univ i)
    have hhand : 1 ≤ (total LoopPoint.inHand l.points).card := by
      rw [hi] at hone
      exact Multiset.card_le_card hone
    have hcard := congrArg Multiset.card h.calls
    rw [hcalls, Multiset.card_add, Multiset.card_range, Multiset.card_range] at hcard
    have hmin := min_le_right claimed size
    omega

end WorkLoop.Claims

namespace Job

variable {n : Nat} {InputPair K V OutputPair : Type} {client : Client InputPair K V OutputPair}
  {inputVec : List InputPair} {outputVec : List OutputPair} {s s' : Job n InputPair K V OutputPair}
  {first : Fin n} {count : Nat}

/-- The elements of a stage that were taken up. -/
def called (s : Job n InputPair K V OutputPair) : Stage → Nat
  | .map => s.mapCalls.length
  | .reduce => (s.reduceCalls.map fun call => call.argument.length).sum
  | _ => s.intermediatePairs.length

/-- Those that are not counted: the element of a worker that has called the client and has not added it
to the word, or the pairs that the shuffle has left in the sorted vectors. -/
def uncounted (s : Job n InputPair K V OutputPair) : Stage → Nat
  | .map => total (fun worker => worker.point.mapPoint.uncounted fun _ => 1) s.workers
  | .reduce =>
      total (fun worker => worker.point.reducePoint.uncounted (weightAt s.afterShuffle)) s.workers
  | _ => s.beforeShuffle.flatten.length

theorem weightAt_eq {vecs : List (IntermediateVec K V)} {index : Nat} {vec : IntermediateVec K V}
    (hvec : vecs[index]? = some vec) : weightAt vecs index = vec.length := by
  rw [weightAt, List.getD_eq_getElem?_getD, hvec, Option.getD_some]

theorem Mapping.count_add (h : Mapping client inputVec s count) :
    count + s.uncounted .map = s.called .map := by
  obtain ⟨claimed, hclaims⟩ := h.claims
  have hcounted := hclaims.counted
  rw [Multiset.map_const', Multiset.sum_replicate, nsmul_eq_mul, Nat.cast_id, mul_one,
    Multiset.coe_card, mapLoop, List.length_map] at hcounted
  exact hcounted

theorem Reducing.count_add (h : Reducing client inputVec s count) :
    count + s.uncounted .reduce = s.called .reduce := by
  obtain ⟨claimed, hclaims⟩ := h.claims
  have hcounted := hclaims.counted
  rw [Multiset.map_coe, Multiset.sum_coe, reduceLoop, List.map_map] at hcounted
  have hweights : s.reduceCalls.map (weightAt s.afterShuffle ∘ Call.index) =
      s.reduceCalls.map fun call => call.argument.length :=
    List.map_congr_left fun call hcall => weightAt_eq (h.calls call hcall).1
  rw [hweights] at hcounted
  exact hcounted

/-- While worker 0 shuffles, the other workers have no pairs. -/
theorem JobInv.inHand_total (h : JobInv client inputVec outputVec first s count)
    (hfirst : first.val = 0) (hrounds : 1 ≤ (s.workers first).point.rounds) :
    total Worker.inHand s.workers = (s.workers first).inHand := by
  apply Finset.sum_eq_single first
  · intro i _ hne
    apply inHand_eq_zero (h.inStep.all_pushed hrounds i)
    intro point hpoint
    exact hne (h.eq_first hfirst (by rw [hpoint]; rfl))
  · exact fun habsent => absurd (Finset.mem_univ first) habsent

theorem JobInv.count_add_shuffle (h : JobInv client inputVec outputVec first s count)
    (hfirst : first.val = 0) (hrounds : 1 ≤ (s.workers first).point.rounds)
    {point : ShufflePoint K V} (hstage : Shuffling client inputVec s point count)
    (hhand : (s.workers first).inHand = point.temp) :
    count + s.uncounted .shuffle = s.called .shuffle := by
  have hlength := h.books.length_eq
  rw [h.inHand_total hfirst hrounds, hhand, Multiset.coe_card] at hlength
  have hcount := hstage.count
  simp only [uncounted, called]
  omega

/-- No worker is in the loop of `reduce_phase` before worker 0 is behind its last reset. -/
theorem InStep.uncounted_reduce (h : InStep s) {stage : Stage}
    (hpoint : (s.workers first).point = .resetNext stage) : s.uncounted .reduce = 0 := by
  apply total_eq_zero
  intro i
  cases hi : (s.workers i).point with
  | reducePhase point =>
      rcases h.all_behind (i := i) (by rw [hi]; exact Nat.le_refl 2) first with heq | ⟨inner, heq⟩
      all_goals
        rw [hpoint] at heq
        cases heq
  | _ => rfl

theorem JobInv.count_add (h : JobInv client inputVec outputVec first s count)
    (hfirst : first.val = 0) :
    count + s.uncounted (s.workers first).point.stage = s.called (s.workers first).point.stage := by
  have hstage := h.stage
  cases hpoint : (s.workers first).point with
  | mapPhase _ | pushBack | firstBarrier | countElements =>
      rw [hpoint] at hstage
      exact Mapping.count_add hstage
  | resetState stage _ =>
      rw [hpoint] at hstage
      cases stage with
      | shuffle => exact Mapping.count_add hstage.1
      | reduce =>
          exact h.count_add_shuffle hfirst (by rw [hpoint]; exact Nat.le_refl 1) hstage.1
            (by rw [Worker.inHand, hpoint]; rfl)
      | undefined | map => exact hstage.elim
  | resetNext stage =>
      rw [hpoint] at hstage
      cases stage with
      | shuffle =>
          exact h.count_add_shuffle hfirst (by rw [hpoint]; exact Nat.le_refl 1) hstage
            (by rw [Worker.inHand, hpoint]; rfl)
      | reduce =>
          obtain ⟨-, hcalls, -, rfl⟩ := hstage
          change 0 + s.uncounted .reduce = s.called .reduce
          rw [h.inStep.uncounted_reduce hpoint, called, hcalls]
          rfl
      | undefined | map => exact hstage.elim
  | shufflePhase point =>
      rw [hpoint] at hstage
      exact h.count_add_shuffle hfirst (by rw [hpoint]; exact Nat.le_refl 1) hstage
        (by rw [Worker.inHand, hpoint])
  | secondBarrier | reducePhase _ =>
      rw [hpoint] at hstage
      exact Reducing.count_add hstage

/-- **The count.** What a client reads counts the elements that were taken up, but for those that are
still on their way. -/
theorem count_exact (hn : 1 ≤ n) (hworkers : n < 2 ^ 31) (client : Client InputPair K V OutputPair)
    {inputVec : List InputPair} (hsize : inputVec.length < 2 ^ 31) (outputVec : List OutputPair)
    {events : List (JobEvent n)} {s : Job n InputPair K V OutputPair}
    (hrun : Run (Meeting (Step client inputVec) NotEarly) (create n K V inputVec outputVec) events s)
    (hfew : s.intermediatePairs.length < 2 ^ 31) :
    ∃ stage : Stage, getStageBits s.atomicState = stage.value ∧
      getCountBits s.atomicState + s.uncounted stage = s.called stage := by
  have hfirst : (⟨0, hn⟩ : Fin n).val = 0 := rfl
  obtain ⟨count, h⟩ := jobInv_of_run hfirst hworkers hsize hrun hfew
  have hdecodes := h.decodes hsize hfew
  refine ⟨_, hdecodes.stageBits, ?_⟩
  rw [hdecodes.countBits]
  exact h.count_add hfirst

/-- Both workers have called `map`, and worker 1 has not counted its call. -/
theorem count_exact_mapping : ∃ s : Job 2 Nat Nat Nat Nat,
    (s.workers 1).point = .mapPhase (.count 1) ∧ s.called .map = 2 ∧
    getCountBits s.atomicState = 1 ∧ s.uncounted .map = 1 := by
  obtain ⟨mapping, released, counted, done, h⟩ := exists_twoWorkers
  obtain ⟨events₁, hmapping⟩ := h.run_mapping
  obtain ⟨events₂, hrest⟩ := h.exists_rest
  have hpairs : done.intermediatePairs = [(7, 7), (5, 5), (7, 7)] := h.done_pairs
  have hfew : mapping.intermediatePairs.length < 2 ^ 31 := by
    refine (few_of_run hrest).trans_lt ?_
    rw [hpairs]
    decide
  obtain ⟨stage, hstage, hcount⟩ :=
    count_exact (by decide) (by decide) echoClient (by decide) [] hmapping hfew
  obtain ⟨hbits, hone⟩ := h.mapping_words
  have hmap : stage = .map := by
    rw [hbits] at hstage
    cases stage <;> first | rfl | cases hstage
  have hcalled : mapping.called .map = 2 := h.mapping_calls
  rw [hmap, hone, hcalled] at hcount
  exact ⟨mapping, h.mapping_points, hcalled, hone, by omega⟩

/-! ### A hundred percent -/

/-- All groups were reduced, and what `reduce` has emitted is in `outputVec`. -/
structure Complete (s : Job n InputPair K V OutputPair) : Prop where
  reduced : (s.reduceCalls.map Call.argument).Perm s.afterShuffle
  emitted : ∀ i, (s.workers i).toEmit = []
  unclaimed : ∀ i index, (s.workers i).point ≠ .reducePhase (.call index)

theorem Books.toEmit_eq_nil_of_ne (h : Books client inputVec outputVec s) {i : Fin n}
    (hpoint : ∀ index, (s.workers i).point ≠ .reducePhase (.count index)) :
    (s.workers i).toEmit = [] := by
  apply h.idle i
  cases hi : (s.workers i).point with
  | reducePhase point =>
      cases point with
      | count index => exact absurd hi (hpoint index)
      | _ => rfl
  | _ => rfl

theorem Reducing.complete (h : Reducing client inputVec s count)
    (hbooks : Books client inputVec outputVec s) (hcount : count = s.intermediatePairs.length) :
    s.Complete := by
  obtain ⟨claimed, hclaims⟩ := h.claims
  have hdone : count = WorkLoop.weightOf (weightAt s.afterShuffle) s.afterShuffle.length := by
    rw [weightOf_weightAt, h.pairs, hcount]
  have hpos : ∀ index < s.afterShuffle.length, 0 < weightAt s.afterShuffle index := by
    intro index hindex
    rw [weightAt_eq (List.getElem?_eq_getElem hindex)]
    exact List.length_pos_of_ne_nil (h.filled _ (List.getElem_mem hindex))
  obtain ⟨hcalls, hpoints⟩ := hclaims.counted_all hdone hpos
  have hplace : ∀ {i : Fin n} {point : LoopPoint}, (s.workers i).point = .reducePhase point →
      s.reduceLoop.points i = point := fun hi => congrArg Point.reducePoint hi
  exact {
    reduced := arguments_perm (fun call hcall => (h.calls call hcall).1) hcalls
    emitted := fun i => hbooks.toEmit_eq_nil_of_ne fun index hi =>
      (hpoints i).1 index (hplace hi)
    unclaimed := fun i index hi => (hpoints i).2 index (hplace hi) }

namespace JobInv

variable (h : JobInv client inputVec outputVec first s count) (hfirst : first.val = 0)
  (hstage : (s.workers first).point.stage = .reduce)
include h hstage

theorem point_of_reduce : (s.workers first).point = .resetNext .reduce ∨
    (s.workers first).point = .secondBarrier ∨
      ∃ inner, (s.workers first).point = .reducePhase inner := by
  have hinv := h.stage
  cases hpoint : (s.workers first).point with
  | resetNext stage =>
      rw [hpoint] at hinv hstage
      cases stage with
      | reduce => exact Or.inl rfl
      | shuffle => cases hstage
      | undefined | map => exact hinv.elim
  | resetState stage _ =>
      rw [hpoint] at hstage
      cases stage <;> cases hstage
  | secondBarrier => exact Or.inr (Or.inl rfl)
  | reducePhase inner => exact Or.inr (Or.inr ⟨inner, rfl⟩)
  | _ =>
      rw [hpoint] at hstage
      cases hstage

theorem complete (hcount : count = s.intermediatePairs.length) : s.Complete := by
  rcases h.point_of_reduce hstage with hpoint | hbehind
  · have hinv := h.stage
    rw [hpoint] at hinv
    obtain ⟨hshuffled, hcalls, -, rfl⟩ := hinv
    have hgroups : s.afterShuffle = [] := by
      have hle := length_le_flatten hshuffled.filled
      rw [hshuffled.pairs, ← hcount] at hle
      exact List.eq_nil_of_length_eq_zero (Nat.le_zero.mp hle)
    have hoccupied : ∀ i inner, (s.workers i).point ≠ .reducePhase inner := by
      intro i inner hi
      rcases h.inStep.all_behind (i := i) (by rw [hi]; exact Nat.le_refl 2) first with
        heq | ⟨inner', heq⟩
      all_goals
        rw [hpoint] at heq
        cases heq
    exact {
      reduced := by rw [hcalls, hgroups]; exact List.Perm.refl _
      emitted := fun i => h.books.toEmit_eq_nil_of_ne fun index => hoccupied i _
      unclaimed := fun i index => hoccupied i _ }
  · exact Reducing.complete ((stageInv_iff_reducing hbehind).mp h.stage) h.books hcount

include hfirst in
theorem flatten_perm : s.afterShuffle.flatten.Perm s.intermediatePairs := by
  have hrounds : 1 ≤ (s.workers first).point.rounds := by
    rcases h.point_of_reduce hstage with hpoint | hpoint | ⟨inner, hpoint⟩
    all_goals
      rw [hpoint]
      exact Nat.le_of_ble_eq_true rfl
  have hhand := h.inStep.inHand_total hfirst hrounds (by
    intro point hpoint
    rw [hpoint] at hstage
    cases hstage)
  have hempty := h.emptied first hfirst (by
    rcases h.point_of_reduce hstage with hpoint | hpoint | ⟨inner, hpoint⟩
    all_goals
      rw [hpoint]
      rfl)
  have hpairs := h.books.pairs
  rw [hhand, List.flatten_eq_nil_iff.mpr hempty, add_zero, Multiset.coe_nil, zero_add] at hpairs
  exact Multiset.coe_eq_coe.mp hpairs

end JobInv

theorem Complete.outputs (h : s.Complete) (hbooks : Books client inputVec outputVec s) :
    ∃ grown, s.outputVec = outputVec ++ grown ∧ grown.Perm s.outputPairs := by
  have hunemitted : total Worker.unemitted s.workers = 0 :=
    total_eq_zero fun i => congrArg _ (h.emitted i)
  obtain ⟨grown, hgrown, hbalance⟩ := hbooks.outputs
  rw [hunemitted, add_zero] at hbalance
  exact ⟨grown, hgrown, Multiset.coe_eq_coe.mp hbalance⟩

/-- Nothing is emitted any more. -/
theorem Complete.step (h : s.Complete) {event : JobEvent n}
    (hstep : Step client inputVec s event s') : s'.outputVec = s.outputVec := by
  cases hstep with
  | @emit3 i _ _ _ _ hemit =>
      rw [h.emitted i] at hemit
      cases hemit
  | _ => rfl

/-- In the last stage nothing changes when all is counted. -/
theorem JobInv.outputVec_of_run (h : JobInv client inputVec outputVec first s count)
    (hfirst : first.val = 0) (hstage : (s.workers first).point.stage = .reduce)
    (hcount : count = s.intermediatePairs.length) (hworkers : n < 2 ^ 31)
    (hsize : inputVec.length < 2 ^ 31) {events : List (JobEvent n)}
    (hrun : Run (Meeting (Step client inputVec) NotEarly) s events s')
    (hfew : s.intermediatePairs.length < 2 ^ 31) : s'.outputVec = s.outputVec := by
  suffices hboth : s'.outputVec = s.outputVec ∧
      s'.intermediatePairs.length = s.intermediatePairs.length ∧
      JobInv client inputVec outputVec first s' count ∧
        (s'.workers first).point.stage = .reduce from hboth.1
  induction hrun with
  | start => exact ⟨rfl, rfl, h, hstage⟩
  | @next _ before after event hbefore hstep ih =>
      obtain ⟨houtputs, hpairs, hinv, hbefore_stage⟩ := ih
      have hcomplete := hinv.complete hbefore_stage (hcount.trans hpairs.symm)
      obtain ⟨count', hinv', hlater⟩ :=
        hinv.step hfirst hworkers hsize (hpairs.trans_lt hfew) hstep.1 hstep.2
      have hsame := hinv.pairs_step hstep.1 (by rw [hbefore_stage]; decide)
      rw [hbefore_stage] at hlater
      have hafter_stage : (after.workers first).point.stage = .reduce ∧ count ≤ count' := by
        rcases hlater with hlt | ⟨heq, hle⟩
        · exfalso
          generalize (after.workers first).point.stage = stage at hlt
          cases stage <;> simp [Stage.value] at hlt
        · exact ⟨heq.symm, hle⟩
      have hle := hinv'.count_le
      rw [hafter_stage.1, elements_of_ne_map (by decide), hsame, hpairs, ← hcount] at hle
      obtain rfl : count' = count := le_antisymm hle hafter_stage.2
      exact ⟨(hcomplete.step hstep.1).trans houtputs, by rw [hsame, hpairs], hinv', hafter_stage.1⟩

/-- **A hundred percent.** When a client reads the last stage with a count that has reached the total,
every group was reduced, and `outputVec` has what `reduce` has emitted and does not change any more. -/
theorem hundred_percent (hn : 1 ≤ n) (hworkers : n < 2 ^ 31)
    (client : Client InputPair K V OutputPair) {inputVec : List InputPair}
    (hsize : inputVec.length < 2 ^ 31) (outputVec : List OutputPair)
    {events events' : List (JobEvent n)} {s s' : Job n InputPair K V OutputPair}
    (hrun : Run (Meeting (Step client inputVec) NotEarly) (create n K V inputVec outputVec) events s)
    (hfew : s.intermediatePairs.length < 2 ^ 31)
    (hstage : getStageBits s.atomicState = Stage.reduce.value)
    (hcount : getCountBits s.atomicState = getTotalBits s.atomicState)
    (hrun' : Run (Meeting (Step client inputVec) NotEarly) s events' s') :
    (s.reduceCalls.map Call.argument).Perm s.afterShuffle ∧
    s.afterShuffle.flatten.Perm s.intermediatePairs ∧
    (∃ grown, s.outputVec = outputVec ++ grown ∧ grown.Perm s.outputPairs) ∧
    s'.outputVec = s.outputVec := by
  have hfirst : (⟨0, hn⟩ : Fin n).val = 0 := rfl
  obtain ⟨count, h⟩ := jobInv_of_run hfirst hworkers hsize hrun hfew
  have hdecodes := h.decodes hsize hfew
  have hreduce : (s.workers ⟨0, hn⟩).point.stage = .reduce := by
    rw [hdecodes.stageBits] at hstage
    generalize (s.workers ⟨0, hn⟩).point.stage = stage at hstage
    cases stage <;> first | rfl | cases hstage
  rw [hdecodes.countBits, hdecodes.totalBits, hreduce, elements_of_ne_map (by decide)] at hcount
  have hcomplete := h.complete hreduce hcount
  exact ⟨hcomplete.reduced, h.flatten_perm hfirst hreduce, hcomplete.outputs h.books,
    h.outputVec_of_run hfirst hreduce hcount hworkers hsize hrun' hfew⟩

/-- Both workers are still in the loop of `reduce_phase`, and the job goes on to its end. -/
theorem hundred_percent_counted : ∃ s s' : Job 2 Nat Nat Nat Nat,
    (∀ i, (s.workers i).point = .reducePhase .next) ∧
    getCountBits s.atomicState = getTotalBits s.atomicState ∧
    (s.reduceCalls.map Call.argument).Perm s.afterShuffle ∧
    s.afterShuffle.flatten.Perm s.intermediatePairs ∧
    (∃ grown, s.outputVec = [] ++ grown ∧ grown.Perm s.outputPairs) ∧
    s'.Done ∧ s'.intermediatePairs = [(7, 7), (5, 5), (7, 7)] ∧ s'.outputVec = s.outputVec := by
  obtain ⟨mapping, released, counted, done, h⟩ := exists_twoWorkers
  obtain ⟨events₁, hmapping⟩ := h.run_mapping
  obtain ⟨events₂, hreleased⟩ := h.run_released
  obtain ⟨events₃, hcounted⟩ := h.run_counted
  obtain ⟨events₄, hdone⟩ := h.run_done
  have hrun := (hmapping.append hreleased).append hcounted
  have hpairs : done.intermediatePairs = [(7, 7), (5, 5), (7, 7)] := h.done_pairs
  have hfew : counted.intermediatePairs.length < 2 ^ 31 := by
    refine (few_of_run hdone).trans_lt ?_
    rw [hpairs]
    decide
  obtain ⟨hstage, hcount, htotal⟩ := h.counted_words
  have hall : getCountBits counted.atomicState = getTotalBits counted.atomicState :=
    hcount.trans htotal.symm
  obtain ⟨hreduced, hflatten, hgrown, hsame⟩ := hundred_percent (by decide) (by decide) echoClient
    (by decide) [] hrun hfew hstage hall hdone
  exact ⟨counted, done, h.counted_points, hall, hreduced, hflatten, hgrown, h.done_points, hpairs,
    hsame⟩

end Job

end OsExercises.MapReduce
