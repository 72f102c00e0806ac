import OsExercises.MapReduce.Leader

/-!
# What a job computes

When all workers have returned, `map` was called once with each pair of the input, `reduce` once with
each group of equal keys, and `outputVec` has grown by what `reduce` has emitted.
-/

namespace OsExercises.MapReduce

/-- Calls with the elements of a list, one with each. -/
theorem arguments_perm {α β : Type} {elements : List α} {calls : List (Call α β)}
    (hargument : ∀ call ∈ calls, elements[call.index]? = some call.argument)
    (hindex : (calls.map Call.index : Multiset Nat) = Multiset.range elements.length) :
    (calls.map Call.argument).Perm elements := by
  have hperm : (calls.map Call.index).Perm (List.range elements.length) :=
    Multiset.coe_eq_coe.mp hindex
  have hsome : (calls.map Call.argument).map some =
      (calls.map Call.index).map fun index => elements[index]? := by
    rw [List.map_map, List.map_map]
    exact List.map_congr_left fun call hcall => (hargument call hcall).symm
  have helements : (List.range elements.length).map (fun index => elements[index]?) =
      elements.map some := by
    apply List.ext_getElem
    · simp
    · intro index h₁ h₂
      simp
  have hmap := hperm.map fun index => elements[index]?
  rw [← hsome, helements] at hmap
  exact (List.map_perm_map_iff (Option.some_injective α)).mp hmap

namespace Job

variable {n : Nat} {InputPair K V OutputPair : Type} {client : Client InputPair K V OutputPair}
  {inputVec : List InputPair} {outputVec : List OutputPair} {s : Job n InputPair K V OutputPair}
  {first : Fin n} {count : Nat}

/-- Every group was given to `reduce` once. -/
theorem JobInv.reduced (h : JobInv client inputVec outputVec first s count) (hdone : s.Done) :
    (s.reduceCalls.map Call.argument).Perm s.afterShuffle := by
  have hreducing := h.reducing hdone
  obtain ⟨claimed, hclaims⟩ := hreducing.claims
  apply arguments_perm fun call hcall => (hreducing.calls call hcall).1
  apply hclaims.complete_calls first.pos
  · exact fun i => congrArg Point.reducePoint (hdone i)
  · intro index hindex
    rw [weightAt, List.getD_eq_getElem _ _ hindex]
    exact List.length_pos_of_ne_nil (hreducing.filled _ (List.getElem_mem hindex))

/-- Nothing is in hand any more. -/
theorem JobInv.pairs_perm (h : JobInv client inputVec outputVec first s count)
    (hfirst : first.val = 0) (hdone : s.Done) : s.afterShuffle.flatten.Perm s.intermediatePairs := by
  have hrounds : 1 ≤ (s.workers first).point.rounds := by
    rw [hdone first]
    exact Nat.le_succ 1
  have hhand := h.inStep.inHand_total hfirst hrounds (by rw [hdone first]; nofun)
  have hempty := h.emptied first hfirst (by rw [hdone first]; rfl)
  have hpairs := h.books.pairs
  rw [hhand, List.flatten_eq_nil_iff.mpr hempty, add_zero, Multiset.coe_nil, zero_add] at hpairs
  exact Multiset.coe_eq_coe.mp hpairs

theorem JobInv.outputs (h : JobInv client inputVec outputVec first s count) (hdone : s.Done) :
    ∃ grown, s.outputVec = outputVec ++ grown ∧ grown.Perm s.outputPairs := by
  have hunemitted : total Worker.unemitted s.workers = 0 := by
    apply total_eq_zero
    intro i
    exact congrArg _ (h.books.toEmit_eq_nil (hdone i) rfl)
  obtain ⟨grown, hgrown, hbalance⟩ := h.books.outputs
  rw [hunemitted, add_zero] at hbalance
  exact ⟨grown, hgrown, Multiset.coe_eq_coe.mp hbalance⟩

/-- Pairs of different vectors have different keys. -/
theorem JobInv.separated (h : JobInv client inputVec outputVec first s count)
    [horder : IsStrictWeakOrder K (KeyLT client.less)] (hdone : s.Done) :
    s.reduceCalls.Pairwise fun call call' =>
      ∀ p ∈ call.argument, ∀ q ∈ call'.argument, ¬ Incomparable (KeyLT client.less) p.1 q.1 := by
  have hdecreasing := ((h.reducing hdone).grouped horder).2
  have hdifferent : s.afterShuffle.Pairwise fun group group' =>
      ∀ p ∈ group, ∀ q ∈ group', ¬ Incomparable (KeyLT client.less) p.1 q.1 :=
    hdecreasing.imp fun hlt p hp q hq hsame => hsame.2 (hlt p hp q hq)
  have hsymm : ∀ group group' : IntermediateVec K V,
      (∀ p ∈ group, ∀ q ∈ group', ¬ Incomparable (KeyLT client.less) p.1 q.1) →
      ∀ p ∈ group', ∀ q ∈ group, ¬ Incomparable (KeyLT client.less) p.1 q.1 :=
    fun _ _ hgroups p hp q hq hsame => hgroups q hq p hp hsame.symm
  have hcalls := (h.reduced hdone).pairwise_iff (hsymm _ _) |>.mpr hdifferent
  exact List.pairwise_map.mp hcalls

/-- **A job.** When all workers have returned, `map` was called once with each pair of the input, the
vectors that `reduce` was called with are the groups of equivalent keys of the pairs that `map` has
emitted, and `outputVec` has grown by the pairs that `reduce` has emitted. -/
theorem mapReduce_correct (hn : 1 ≤ n) (hworkers : n < 2 ^ 31)
    (client : Client InputPair K V OutputPair) [horder : IsStrictWeakOrder K (KeyLT client.less)]
    {inputVec : List InputPair} (hsize : inputVec.length < 2 ^ 31) (outputVec : List OutputPair)
    {events : List (JobEvent n)} {s : Job n InputPair K V OutputPair}
    (hrun : Run (Meeting (Step client inputVec) NotEarly) (create n K V inputVec outputVec) events s)
    (hfew : s.intermediatePairs.length < 2 ^ 31) (hdone : s.Done) :
    ((s.mapCalls.map Call.index).Perm (List.range inputVec.length) ∧
      ∀ call ∈ s.mapCalls,
        inputVec[call.index]? = some call.argument ∧ client.map call.argument call.emitted) ∧
    ((s.reduceCalls.flatMap Call.argument).Perm s.intermediatePairs ∧
      (∀ call ∈ s.reduceCalls,
        IsGroup client.less call.argument ∧ client.reduce call.argument call.emitted) ∧
      s.reduceCalls.Pairwise fun call call' =>
        ∀ p ∈ call.argument, ∀ q ∈ call'.argument, ¬ Incomparable (KeyLT client.less) p.1 q.1) ∧
    ∃ grown, s.outputVec = outputVec ++ grown ∧ grown.Perm s.outputPairs := by
  have hfirst : (⟨0, hn⟩ : Fin n).val = 0 := rfl
  obtain ⟨count, h⟩ := jobInv_of_run hfirst hworkers hsize hrun hfew
  have hreducing := h.reducing hdone
  refine ⟨⟨?_, h.books.mapCalls⟩, ⟨?_, ?_, h.separated hdone⟩, h.outputs hdone⟩
  · exact Multiset.coe_eq_coe.mp hreducing.mapped
  · have hflatten := (h.reduced hdone).flatten.trans (h.pairs_perm hfirst hdone)
    rwa [← List.flatMap_def] at hflatten
  · intro call hcall
    obtain ⟨hindex, hreduce⟩ := hreducing.calls call hcall
    exact ⟨(hreducing.grouped horder).1 _ (List.mem_of_getElem? hindex), hreduce⟩

theorem mapReduce_correct_three : ∃ s : Job 2 Nat Nat Nat Nat, s.Done ∧
    (s.mapCalls.map Call.index).Perm [0, 1, 2] ∧
    (s.reduceCalls.flatMap Call.argument).Perm [(7, 7), (5, 5), (7, 7)] ∧
    (s.reduceCalls.Pairwise fun call call' => ∀ p ∈ call.argument, ∀ q ∈ call'.argument,
      ¬ Incomparable (KeyLT echoClient.less) p.1 q.1) ∧
    ∃ grown, s.outputVec = [] ++ grown ∧ grown.Perm s.outputPairs := by
  obtain ⟨mapping, released, counted, done, h⟩ := exists_twoWorkers
  obtain ⟨events, hrun⟩ := h.exists_run
  have hpairs : done.intermediatePairs = [(7, 7), (5, 5), (7, 7)] := h.done_pairs
  have horder : IsStrictWeakOrder Nat (KeyLT echoClient.less) := isStrictWeakOrder_nat
  obtain ⟨⟨hmap, -⟩, ⟨hreduce, -, hseparated⟩, hgrown⟩ := mapReduce_correct (by decide) (by decide)
    echoClient (by decide) [] hrun (by rw [hpairs]; decide) h.done_points
  rw [hpairs] at hreduce
  exact ⟨done, h.done_points, hmap, hreduce, hseparated, hgrown⟩

end Job

end OsExercises.MapReduce
