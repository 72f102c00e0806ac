import OsExercises.MapReduce.Stages

/-!
# Runs of a job

Worker 0 takes the job from one stage to the next. With its steps, those of the two loops and those of
the barrier, every step of a job keeps the invariant, and never takes the progress back.
-/

namespace OsExercises.MapReduce

open Function (update)

/-- The progress in the order in which it is reported. -/
def Later (stage : Stage) (count : Nat) (stage' : Stage) (count' : Nat) : Prop :=
  stage.value < stage'.value ∨ (stage = stage' ∧ count ≤ count')

namespace Later

variable {stage stage' stage'' : Stage} {count count' count'' : Nat}

theorem trans (h : Later stage count stage' count') (h' : Later stage' count' stage'' count'') :
    Later stage count stage'' count'' := by
  rcases h with hlt | ⟨rfl, hle⟩
  · rcases h' with hlt' | ⟨rfl, -⟩
    · exact Or.inl (hlt.trans hlt')
    · exact Or.inl hlt
  · rcases h' with hlt' | ⟨rfl, hle'⟩
    · exact Or.inl hlt'
    · exact Or.inr ⟨rfl, hle.trans hle'⟩

theorem value_le (h : Later stage count stage' count') : stage.value ≤ stage'.value := by
  rcases h with hlt | ⟨rfl, -⟩
  · exact hlt.le
  · exact le_rfl

end Later

theorem Point.stage_of_rounds {K V : Type} {point : Point K V} (hrounds : point.rounds = 0) :
    point.stage = .map := by
  cases point <;> first | rfl | cases hrounds

namespace Job

variable {n : Nat} {InputPair K V OutputPair : Type} {client : Client InputPair K V OutputPair}
  {inputVec : List InputPair} {outputVec : List OutputPair} {s s' : Job n InputPair K V OutputPair}
  {first : Fin n} {count : Nat}

/-- The number of elements of a stage. -/
def elements (inputVec : List InputPair) (s : Job n InputPair K V OutputPair) : Stage → Nat
  | .map => inputVec.length
  | _ => s.intermediatePairs.length

structure JobInv (client : Client InputPair K V OutputPair) (inputVec : List InputPair)
    (outputVec : List OutputPair) (first : Fin n) (s : Job n InputPair K V OutputPair)
    (count : Nat) : Prop where
  inStep : InStep s
  emptied : s.Emptied
  books : Books client inputVec outputVec s
  stage : StageInv client inputVec s count (s.workers first).point

/-! ### Counting the pairs -/

theorem inHand_eq_zero {worker : Worker K V OutputPair} (hpushed : worker.point.pushed = true)
    (hshuffle : ∀ point, worker.point ≠ .shufflePhase point) : worker.inHand = 0 := by
  obtain ⟨point, vec, toEmit⟩ := worker
  cases point with
  | mapPhase _ => cases hpushed
  | pushBack => cases hpushed
  | shufflePhase point => exact absurd rfl (hshuffle point)
  | _ => rfl

/-- No pair is in a vector of a worker when worker 0 is behind the first round and does not shuffle. -/
theorem InStep.inHand_total (h : InStep s) (hfirst : first.val = 0)
    (hrounds : 1 ≤ (s.workers first).point.rounds)
    (hshuffle : ∀ point, (s.workers first).point ≠ .shufflePhase point) :
    total Worker.inHand s.workers = 0 := by
  apply total_eq_zero
  intro i
  apply inHand_eq_zero (h.all_pushed hrounds i)
  intro point hpoint
  have hleading : (s.workers i).point.leading = true := by rw [hpoint]; rfl
  have heq : i = first := Fin.ext ((h.leader i hleading).trans hfirst.symm)
  rw [heq] at hpoint
  exact hshuffle point hpoint

theorem Books.length_eq (h : Books client inputVec outputVec s) :
    s.beforeShuffle.flatten.length + s.afterShuffle.flatten.length +
      (total Worker.inHand s.workers).card = s.intermediatePairs.length := by
  have hcard := congrArg Multiset.card h.pairs
  rwa [Multiset.card_add, Multiset.card_add, Multiset.coe_card, Multiset.coe_card,
    Multiset.coe_card] at hcard

/-- The pairs that the shuffle has taken are not more than there are. -/
theorem Books.taken_le (h : Books client inputVec outputVec s) {i : Fin n}
    {point : ShufflePoint K V} (hi : (s.workers i).point = .shufflePhase point) :
    s.afterShuffle.flatten.length + point.temp.length ≤ s.intermediatePairs.length := by
  have hlength := h.length_eq
  have hle := Finset.single_le_sum (fun j _ => Multiset.zero_le (Worker.inHand (s.workers j)))
    (Finset.mem_univ i)
  have hcard := Multiset.card_le_card hle
  have hhand : (s.workers i).inHand = point.temp := by rw [Worker.inHand, hi]
  rw [hhand, Multiset.coe_card] at hcard
  change _ ≤ (total Worker.inHand s.workers).card at hcard
  omega

theorem mapCalls_step {event : JobEvent n} (hstep : Step client inputVec s event s') :
    s'.mapCalls = s.mapCalls ∨
      ∃ i call, event = .own i ∧ (s.workers i).point.pushed = false ∧
        s'.mapCalls = s.mapCalls ++ [call] := by
  cases hstep with
  | @map i _ _ _ hi _ _ =>
      right
      refine ⟨i, _, rfl, ?_, rfl⟩
      rw [hi]
      rfl
  | _ => exact Or.inl rfl

theorem pairs_le_step {event : JobEvent n} (hstep : Step client inputVec s event s') :
    s.intermediatePairs.length ≤ s'.intermediatePairs.length := by
  rcases mapCalls_step hstep with hsame | ⟨i, call, -, -, hcalls⟩
  · rw [intermediatePairs, intermediatePairs, hsame]
  · rw [intermediatePairs, intermediatePairs, hcalls, List.flatMap_append, List.length_append]
    exact Nat.le_add_right _ _

/-- The word of a job. -/
theorem StageInv.word {point : Point K V} (h : StageInv client inputVec s count point) :
    s.atomicState = jobWord point.stage (s.elements inputVec point.stage) count := by
  have hmapping : Mapping client inputVec s count →
      s.atomicState = jobWord .map inputVec.length count := by
    intro hstage
    obtain ⟨claimed, hclaims⟩ := hstage.claims
    have hword := hclaims.word
    rwa [weightOf_one] at hword
  have hreducing : Reducing client inputVec s count →
      s.atomicState = jobWord .reduce s.intermediatePairs.length count := by
    intro hstage
    obtain ⟨claimed, hclaims⟩ := hstage.claims
    have hword := hclaims.word
    rwa [weightOf_weightAt, hstage.pairs] at hword
  cases point with
  | mapPhase _ => exact hmapping h
  | pushBack => exact hmapping h
  | firstBarrier => exact hmapping h
  | countElements => exact hmapping h
  | resetState stage _ =>
      cases stage with
      | shuffle => exact hmapping h.1
      | reduce => exact h.1.word
      | _ => exact h.elim
  | resetNext stage =>
      cases stage with
      | shuffle => exact Shuffling.word h
      | reduce =>
          obtain ⟨-, -, hword, rfl⟩ := h
          exact hword
      | _ => exact h.elim
  | shufflePhase _ => exact Shuffling.word h
  | secondBarrier => exact hreducing h
  | reducePhase _ => exact hreducing h

/-! ### The steps of worker 0 between the loops -/

section Leader

theorem Mapping.mapped (hstage : Mapping client inputVec s count) (hn : 1 ≤ n)
    (hall : ∀ i, (s.workers i).point.pushed = true) : s.Mapped inputVec := by
  obtain ⟨claimed, hclaims⟩ := hstage.claims
  apply hclaims.complete_calls hn _ fun _ _ => Nat.one_pos
  intro i
  have hpushed := hall i
  change (s.workers i).point.mapPoint = .out
  generalize (s.workers i).point = point at hpushed
  cases point <;> first | rfl | cases hpushed

variable (h : JobInv client inputVec outputVec first s count) (hfirst : first.val = 0)
include h

include hfirst in
/-- The word starts again with the number of the pairs. -/
theorem resetState_shuffle {totalElements : Nat} (hfew : s.intermediatePairs.length < 2 ^ 31)
    (hpoint : (s.workers first).point = .resetState .shuffle totalElements) :
    Shuffling client inputVec
      { s.goTo first (.resetNext .shuffle) with
        atomicState := resetWord .shuffle totalElements } .key 0 := by
  have hstage := h.stage
  rw [hpoint] at hstage
  obtain ⟨hmapping, htotal⟩ := hstage
  have hrounds : 1 ≤ (s.workers first).point.rounds := by rw [hpoint]; exact le_rfl
  have hlength := h.books.length_eq
  rw [h.inStep.inHand_total hfirst hrounds (by rw [hpoint]; nofun), hmapping.afterShuffle] at hlength
  have hpairs : totalElements = s.intermediatePairs.length := by
    rw [htotal, ← hlength]
    rfl
  have hmapped : s.Mapped inputVec :=
    hmapping.mapped first.pos (h.inStep.all_pushed hrounds)
  constructor
  · change resetWord .shuffle totalElements = _
    rw [hpairs]
    exact resetWord_eq hfew
  · change 0 = s.afterShuffle.flatten.length + 0
    rw [hmapping.afterShuffle]
    rfl
  · exact hmapping.reduceCalls
  · exact hmapped
  · refine ⟨s.beforeShuffle, [], ?_, hmapping.sorted⟩
    change Run (Shuffle.Step client.less) _ [] (⟨s.beforeShuffle, s.afterShuffle, .key⟩ : Shuffle K V)
    rw [hmapping.afterShuffle]
    exact Run.start

theorem shuffle_step {point : ShufflePoint K V} {amount : Nat} {shuffle : Shuffle K V}
    (hfew : s.intermediatePairs.length < 2 ^ 31)
    (hpoint : (s.workers first).point = .shufflePhase point)
    (hstep : Shuffle.Step client.less ⟨s.beforeShuffle, s.afterShuffle, point⟩ amount shuffle)
    (hbooks : Books client inputVec outputVec
      { s.goTo first (.shufflePhase shuffle.point) with
        atomicState := fetchAdd s.atomicState amount
        beforeShuffle := shuffle.beforeShuffle
        afterShuffle := shuffle.afterShuffle }) :
    Shuffling client inputVec
      { s.goTo first (.shufflePhase shuffle.point) with
        atomicState := fetchAdd s.atomicState amount
        beforeShuffle := shuffle.beforeShuffle
        afterShuffle := shuffle.afterShuffle } shuffle.point (count + amount) := by
  have hstage : Shuffling client inputVec s point count := by
    have hstage := h.stage
    rwa [hpoint] at hstage
  have hamount : shuffle.afterShuffle.flatten.length + shuffle.point.temp.length =
      s.afterShuffle.flatten.length + point.temp.length + amount := Shuffle.amount_step hstep
  have htaken : shuffle.afterShuffle.flatten.length + shuffle.point.temp.length ≤
      s.intermediatePairs.length :=
    hbooks.taken_le (i := first) (congrArg Worker.point (setWorker_self s first _))
  have hcount := hstage.count
  constructor
  · change fetchAdd s.atomicState amount = jobWord .shuffle s.intermediatePairs.length _
    rw [hstage.word]
    apply fetchAdd_jobWord hfew
    omega
  · change count + amount = shuffle.afterShuffle.flatten.length + shuffle.point.temp.length
    omega
  · exact hstage.reduceCalls
  · exact hstage.mapped
  · obtain ⟨vecs, amounts, hrun, hsorted⟩ := hstage.run
    exact ⟨vecs, amounts ++ [amount], hrun.next hstep, hsorted⟩

include hfirst in
/-- The word starts again with the number of the pairs, which are all in the groups now. -/
theorem resetState_reduce {totalElements : Nat} (hfew : s.intermediatePairs.length < 2 ^ 31)
    (hpoint : (s.workers first).point = .resetState .reduce totalElements) :
    Shuffled client inputVec s ∧ s.reduceCalls = [] ∧
      resetWord .reduce totalElements = jobWord .reduce s.intermediatePairs.length 0 := by
  have hstage := h.stage
  rw [hpoint] at hstage
  obtain ⟨hshuffling, htotal⟩ := hstage
  have hrounds : 1 ≤ (s.workers first).point.rounds := by rw [hpoint]; exact le_rfl
  have hempty := h.emptied first hfirst (by rw [hpoint]; rfl)
  have hlength := h.books.length_eq
  rw [h.inStep.inHand_total hfirst hrounds (by rw [hpoint]; nofun),
    List.flatten_eq_nil_iff.mpr hempty] at hlength
  have hpairs : s.afterShuffle.flatten.length = s.intermediatePairs.length := by
    rw [← hlength]
    exact (Nat.zero_add _).symm
  obtain ⟨vecs, amounts, hrun, hsorted⟩ := hshuffling.run
  refine ⟨⟨hpairs, Shuffle.filled_of_out hrun rfl, ?_, hshuffling.mapped⟩,
    hshuffling.reduceCalls, ?_⟩
  · intro horder
    have hgroups := groups_of_out (hsorted horder) hrun rfl
    exact ⟨hgroups.isGroup, hgroups.decreasing⟩
  · rw [htotal, hpairs]
    exact resetWord_eq hfew

theorem resetNext_reduce (hpoint : (s.workers first).point = .resetNext .reduce) :
    Reducing client inputVec
      { s.goTo first .secondBarrier with atomicNextToProcess := 0 } 0 ∧ count = 0 := by
  have hstage := h.stage
  rw [hpoint] at hstage
  obtain ⟨hshuffled, hcalls, hword, hcount⟩ := hstage
  have hload : ∀ i, (s.workers i).point.reducePoint = .load := by
    intro i
    have hrounds : ¬ 2 ≤ (s.workers i).point.rounds := by
      intro htwo
      have hbehind := h.inStep.all_behind htwo first
      rw [hpoint] at hbehind
      simp at hbehind
    generalize (s.workers i).point = point at hrounds
    cases point <;> first | rfl | exact absurd le_rfl hrounds
  refine ⟨⟨⟨hshuffled.pairs, hshuffled.filled, hshuffled.grouped, hshuffled.mapped⟩, ?_, ?_⟩, hcount⟩
  · refine ⟨0, WorkLoop.Claims.start ?_ rfl ?_ ?_⟩
    · change s.atomicState =
        jobWord .reduce (WorkLoop.weightOf (weightAt s.afterShuffle) s.afterShuffle.length) 0
      rw [hword, weightOf_weightAt, hshuffled.pairs]
    · intro i
      change ((s.goTo first .secondBarrier).workers i).point.reducePoint = .load
      by_cases heq : i = first
      · rw [heq, goTo, setWorker_self]
        rfl
      · rw [goTo, setWorker_of_ne s heq]
        exact hload i
    · change s.reduceCalls.map Call.index = []
      rw [hcalls]
      rfl
  · intro call hcall
    change call ∈ s.reduceCalls at hcall
    rw [hcalls] at hcall
    cases hcall

include hfirst in
theorem leader_step (hfew : s.intermediatePairs.length < 2 ^ 31)
    (hleading : (s.workers first).point.leading = true)
    (hstep : Step client inputVec s (.own first) s') :
    ∃ point count', (s'.workers first).point = point ∧ StageInv client inputVec s' count' point ∧
      Later (s.workers first).point.stage count point.stage count' := by
  have hbooks := h.books.step hstep
  have hstage := h.stage
  have hself : ∀ point, ((s.goTo first point).workers first).point = point :=
    fun point => congrArg Worker.point (setWorker_self s first _)
  cases hstep with
  | countElements hpoint =>
      rw [hpoint] at hstage ⊢
      refine ⟨_, count, hself _, ⟨?_, ?_⟩, Or.inr ⟨rfl, le_rfl⟩⟩
      · exact Mapping.same hstage (Same.goTo hpoint rfl rfl nofun)
      · exact (List.length_flatten).symm
  | @resetState _ stage totalElements hpoint =>
      cases stage with
      | shuffle =>
          refine ⟨_, 0, hself _, resetState_shuffle h hfirst hfew hpoint, ?_⟩
          rw [hpoint]
          exact Or.inl (Nat.lt_succ_self 1)
      | reduce =>
          obtain ⟨hshuffled, hcalls, hword⟩ := resetState_reduce h hfirst hfew hpoint
          refine ⟨_, 0, hself _, ⟨?_, hcalls, hword, rfl⟩, ?_⟩
          · exact ⟨hshuffled.pairs, hshuffled.filled, hshuffled.grouped, hshuffled.mapped⟩
          · rw [hpoint]
            exact Or.inl (Nat.lt_succ_self 2)
      | _ =>
          rw [hpoint] at hstage
          exact hstage.elim
  | @resetNext _ stage hpoint =>
      rw [hpoint] at hstage ⊢
      cases stage with
      | shuffle =>
          have hshuffling : Shuffling client inputVec s .key count := hstage
          refine ⟨_, count, hself _, ?_, Or.inr ⟨rfl, le_rfl⟩⟩
          exact ⟨hshuffling.word, hshuffling.count, hshuffling.reduceCalls, hshuffling.mapped,
            hshuffling.run⟩
      | reduce =>
          obtain ⟨hreducing, rfl⟩ := resetNext_reduce h hpoint
          exact ⟨_, 0, hself _, hreducing, Or.inr ⟨rfl, le_rfl⟩⟩
      | _ => exact hstage.elim
  | @shuffle _ point amount shuffle hpoint hshuffle =>
      refine ⟨_, count + amount, hself _, shuffle_step h hfew hpoint hshuffle hbooks, ?_⟩
      rw [hpoint]
      exact Or.inr ⟨rfl, Nat.le_add_right _ _⟩
  | countShuffled hpoint =>
      rw [hpoint] at hstage ⊢
      refine ⟨_, count, hself _, ⟨?_, ?_⟩, Or.inr ⟨rfl, le_rfl⟩⟩
      · exact Shuffling.same hstage (Same.goTo hpoint rfl rfl nofun)
      · exact (List.length_flatten).symm
  -- these are the steps of the loops
  | mapLoad hpoint | mapNext hpoint | map hpoint _ _ | mapCount hpoint | sort hpoint _
  | pushBack hpoint | reduceLoad hpoint | reduceNext hpoint | reduce hpoint _ _
  | emit3 hpoint _ | reduceCount hpoint _ _ =>
      rw [hpoint] at hleading
      cases hleading

end Leader

/-! ### Steps -/

theorem Same.withBarrier (h : Same s s') (barrier : Barrier n) :
    Same s { s' with barrier := barrier } :=
  ⟨h.mapLoop, h.reduceLoop, h.beforeShuffle, h.afterShuffle, h.mapCalls, h.reduceCalls, h.pushing⟩

theorem Same.refl (s : Job n InputPair K V OutputPair) : Same s s :=
  ⟨rfl, rfl, rfl, rfl, rfl, rfl, fun _ _ => rfl⟩

/-- A worker that returns from the barrier stays in its stage. -/
theorem Same.goTo_behindBarrier {i : Fin n} (hi : (s.workers i).point.atBarrier = true) :
    Same s (s.goTo i ((s.workers i).point.behindBarrier i)) := by
  generalize hpoint : (s.workers i).point = point at hi
  cases point with
  | firstBarrier =>
      by_cases hid : i.val = 0
      · rw [Point.behindBarrier, if_pos hid]
        exact Same.goTo hpoint rfl rfl (by simp)
      · rw [Point.behindBarrier, if_neg hid]
        exact Same.goTo hpoint rfl rfl (by simp)
  | secondBarrier => exact Same.goTo hpoint rfl rfl (by simp [Point.behindBarrier])
  | _ => cases hi

namespace JobInv

/-- Worker 0 returns from the barrier. -/
theorem behindBarrier (hfirst : first.val = 0) {point : Point K V} (hpoint : point.atBarrier = true)
    (hstage : StageInv client inputVec s count point) :
    StageInv client inputVec s count (point.behindBarrier first) ∧
      (point.behindBarrier first).stage = point.stage := by
  cases point with
  | firstBarrier =>
      rw [Point.behindBarrier, if_pos hfirst]
      exact ⟨hstage, rfl⟩
  | secondBarrier => exact ⟨hstage, rfl⟩
  | _ => cases hpoint

variable (h : JobInv client inputVec outputVec first s count) (hfirst : first.val = 0)
include h hfirst

theorem barrierReturn {i : Fin n} (hi : (s.workers i).point.atBarrier = true)
    (barrier : Barrier n) :
    ∃ point, ((s.goTo i ((s.workers i).point.behindBarrier i)).workers first).point = point ∧
      StageInv client inputVec
        { s.goTo i ((s.workers i).point.behindBarrier i) with barrier := barrier } count point ∧
      Later (s.workers first).point.stage count point.stage count := by
  have hsame := (Same.goTo_behindBarrier hi).withBarrier barrier
  by_cases heq : first = i
  · subst heq
    obtain ⟨hstage, hsamestage⟩ := behindBarrier hfirst hi h.stage
    exact ⟨_, congrArg Worker.point (setWorker_self s first _), hstage.same hsame,
      Or.inr ⟨hsamestage.symm, le_rfl⟩⟩
  · exact ⟨_, congrArg Worker.point (setWorker_of_ne s heq _), h.stage.same hsame,
      Or.inr ⟨rfl, le_rfl⟩⟩

theorem own (hworkers : n < 2 ^ 31) (hsize : inputVec.length < 2 ^ 31)
    (hfew : s.intermediatePairs.length < 2 ^ 31) {i : Fin n}
    (hstep : Step client inputVec s (.own i) s') (hafter : InStep s') :
    ∃ point count', (s'.workers first).point = point ∧ StageInv client inputVec s' count' point ∧
      Later (s.workers first).point.stage count point.stage count' := by
  obtain ⟨worker, hown⟩ := own_step hstep
  have hself : s'.workers i = worker := by rw [hown.workers, Function.update_self]
  by_cases hpushed : (s.workers i).point.pushed = false
  · -- in `map_phase`: no worker is behind the first round
    have hzero : (s.workers i).point.rounds = 0 := by
      generalize (s.workers i).point = point at hpushed
      cases point <;> first | rfl | cases hpushed
    have hrounds := h.inStep.rounds_le first i
    rw [hown.outside, hzero] at hrounds
    have houtside : (s'.workers i).point.rounds = 0 := by rw [hself, hown.rounds, hzero]
    have hbefore : (s.workers first).point.rounds = 0 := Nat.le_zero.mp hrounds
    have hbehind : (s'.workers first).point.rounds = 0 := by
      by_cases heq : first = i
      · rw [heq, houtside]
      · rw [hown.workers, Function.update_of_ne heq, hbefore]
    obtain ⟨count', hmapping, hle⟩ :=
      Mapping.own ((stageInv_iff_mapping hbefore).mp h.stage) hworkers hsize hpushed hstep
    refine ⟨_, count', rfl, (stageInv_iff_mapping hbehind).mpr hmapping, Or.inr ⟨?_, hle⟩⟩
    rw [Point.stage_of_rounds hbefore, Point.stage_of_rounds hbehind]
  · by_cases hleading : (s.workers i).point.leading = true
    · -- worker 0 leads
      have heq : i = first := Fin.ext ((h.inStep.leader i hleading).trans hfirst.symm)
      subst heq
      exact leader_step h hfirst hfew hleading hstep
    · -- in `reduce_phase`: worker 0 has shuffled
      have htwo : (s.workers i).point.rounds = 2 := by
        have houtside := hown.outside
        generalize (s.workers i).point = point at hpushed hleading houtside
        cases point <;> simp_all [Point.pushed, Point.leading, Point.atBarrier, Point.rounds]
      have htwo' : (s'.workers i).point.rounds = 2 := by rw [hself, hown.rounds, htwo]
      have hbefore := h.inStep.all_behind htwo.ge first
      have hbehind := hafter.all_behind htwo'.ge first
      obtain ⟨count', hreducing, hle⟩ :=
        Reducing.own ((stageInv_iff_reducing hbefore).mp h.stage) hworkers hfew htwo hstep
      refine ⟨_, count', rfl, (stageInv_iff_reducing hbehind).mpr hreducing, Or.inr ⟨?_, hle⟩⟩
      rcases hbefore with heq | ⟨inner, heq⟩ <;> rcases hbehind with heq' | ⟨inner', heq'⟩ <;>
        rw [heq, heq'] <;> rfl

/-- One step. -/
theorem step (hworkers : n < 2 ^ 31) (hsize : inputVec.length < 2 ^ 31)
    (hfew : s.intermediatePairs.length < 2 ^ 31) {event : JobEvent n}
    (hstep : Step client inputVec s event s') (hearly : NotEarly s event s') :
    ∃ count', JobInv client inputVec outputVec first s' count' ∧
      Later (s.workers first).point.stage count (s'.workers first).point.stage count' := by
  have hinStep := h.inStep.step hstep hearly
  have hemptied := emptied_step h.emptied h.inStep hstep
  have hbooks := h.books.step hstep
  suffices hstage : ∃ point count', (s'.workers first).point = point ∧
      StageInv client inputVec s' count' point ∧
      Later (s.workers first).point.stage count point.stage count' by
    obtain ⟨point, count', rfl, hstage, hlater⟩ := hstage
    exact ⟨count', ⟨hinStep, hemptied, hbooks, hstage⟩, hlater⟩
  cases event with
  | own i => exact h.own hfirst hworkers hsize hfew hstep hinStep
  | barrier event =>
      cases hstep with
      | @barrier _ barrier _ _ _ =>
          exact ⟨_, count, rfl, h.stage.same ((Same.refl s).withBarrier barrier),
            Or.inr ⟨rfl, le_rfl⟩⟩
      | @barrierReturn i barrier hi _ =>
          obtain ⟨point, hpoint, hstage, hlater⟩ := h.barrierReturn hfirst hi barrier
          exact ⟨point, count, hpoint, hstage, hlater⟩

end JobInv

/-! ### Runs -/

theorem JobInv.create (hsize : inputVec.length < 2 ^ 31) :
    JobInv client inputVec outputVec first (Job.create n K V inputVec outputVec) 0 where
  inStep := InStep.create first.pos outputVec
  emptied _ _ hshuffled := by cases hshuffled
  books := Books.create
  stage := by
    constructor
    · refine ⟨0, WorkLoop.Claims.start ?_ rfl (fun _ => rfl) rfl⟩
      rw [weightOf_one]
      exact resetWord_eq hsize
    · rfl
    · rfl
    · intro _ vec hvec
      cases hvec
    · intro _ i hi
      cases hi

/-- Behind the first stage no pair is emitted any more. -/
theorem JobInv.pairs_step (h : JobInv client inputVec outputVec first s count) {event : JobEvent n}
    (hstep : Step client inputVec s event s')
    (hstage : Stage.map.value < (s.workers first).point.stage.value) :
    s'.intermediatePairs = s.intermediatePairs := by
  have hrounds : 1 ≤ (s.workers first).point.rounds := by
    by_contra hzero
    rw [Point.stage_of_rounds (by omega)] at hstage
    exact lt_irrefl _ hstage
  have hcalls : s'.mapCalls = s.mapCalls := by
    apply (mapCalls_step hstep).resolve_right
    rintro ⟨i, call, -, hpushed, -⟩
    rw [h.inStep.all_pushed hrounds i] at hpushed
    cases hpushed
  rw [intermediatePairs, intermediatePairs, hcalls]

theorem few_of_run {events : List (JobEvent n)}
    (hrun : Run (Meeting (Step client inputVec) NotEarly) s events s') :
    s.intermediatePairs.length ≤ s'.intermediatePairs.length := by
  induction hrun with
  | start => exact le_rfl
  | next _ hstep ih => exact ih.trans (pairs_le_step hstep.1)

/-- The stages of a run. -/
theorem JobInv.run (h : JobInv client inputVec outputVec first s count) (hfirst : first.val = 0)
    (hworkers : n < 2 ^ 31) (hsize : inputVec.length < 2 ^ 31) {events : List (JobEvent n)}
    (hrun : Run (Meeting (Step client inputVec) NotEarly) s events s')
    (hfew : s'.intermediatePairs.length < 2 ^ 31) :
    ∃ count', JobInv client inputVec outputVec first s' count' ∧
      Later (s.workers first).point.stage count (s'.workers first).point.stage count' ∧
      (Stage.map.value < (s.workers first).point.stage.value →
        s'.intermediatePairs = s.intermediatePairs) := by
  induction hrun with
  | start => exact ⟨count, h, Or.inr ⟨rfl, le_rfl⟩, fun _ => rfl⟩
  | @next events before after event hrun hstep ih =>
      have hfewer := (pairs_le_step hstep.1).trans_lt hfew
      obtain ⟨count', h', hlater, hsame⟩ := ih hfewer
      obtain ⟨count'', h'', hlater'⟩ := h'.step hfirst hworkers hsize hfewer hstep.1 hstep.2
      refine ⟨count'', h'', hlater.trans hlater', ?_⟩
      intro hstage
      rw [h'.pairs_step hstep.1 (hstage.trans_le hlater.value_le), hsame hstage]

/-- A run from the start. -/
theorem jobInv_of_run (hfirst : first.val = 0) (hworkers : n < 2 ^ 31)
    (hsize : inputVec.length < 2 ^ 31) {events : List (JobEvent n)}
    (hrun : Run (Meeting (Step client inputVec) NotEarly) (create n K V inputVec outputVec) events s)
    (hfew : s.intermediatePairs.length < 2 ^ 31) :
    ∃ count, JobInv client inputVec outputVec first s count := by
  obtain ⟨count, h, -, -⟩ := (JobInv.create hsize).run hfirst hworkers hsize hrun hfew
  exact ⟨count, h⟩

/-! ### A whole run -/

/-- All workers have returned. -/
def Done (s : Job n InputPair K V OutputPair) : Prop :=
  ∀ i, (s.workers i).point = .reducePhase .out

theorem JobInv.reducing (h : JobInv client inputVec outputVec first s count) (hdone : s.Done) :
    Reducing client inputVec s count :=
  (stageInv_iff_reducing (Or.inr ⟨_, hdone first⟩)).mp h.stage

theorem sorts_singleton {K V : Type} (less : K → K → Bool) (p : K × V) : Sorts less [p] [p] :=
  ⟨List.Perm.refl _, fun _ => List.pairwise_singleton _ _⟩

/-- One worker, and one pair of input. -/
theorem exists_run_seven : ∃ events s,
    Run (Meeting (Step echoClient [7]) NotEarly) (create 1 Nat Nat [7] []) events s ∧
      s.Done ∧ s.intermediatePairs = [(7, 7)] := by
  have hstart : Run (Meeting (Step echoClient [7]) NotEarly) (create 1 Nat Nat [7] []) [] _ := .start
  have hmapLoad := hstart.next ⟨.mapLoad (i := 0) rfl, fun i => by simp⟩
  have hmapNext := hmapLoad.next ⟨.mapNext (i := 0) rfl, fun i => by simp⟩
  have hmap := hmapNext.next ⟨.map (i := 0) rfl rfl rfl, fun i => by simp⟩
  have hmapCount := hmap.next ⟨.mapCount (i := 0) rfl, fun i => by simp⟩
  have hmapOut := hmapCount.next ⟨.mapNext (i := 0) rfl, fun i => by simp⟩
  have hsort := hmapOut.next ⟨.sort (i := 0) rfl (sorts_singleton _ (7, 7)), fun i => by simp⟩
  have hpushBack := hsort.next ⟨.pushBack (i := 0) rfl, fun i => by simp⟩
  have henter := hpushBack.next ⟨.barrier (by rfl) (by nofun) (.enter (i := 0) rfl), fun i => by simp⟩
  have hlock := henter.next ⟨.barrier (by rfl) (by nofun) (.lock (i := 0) rfl rfl), fun i => by simp⟩
  have hlast := hlock.next
    ⟨.barrier (by rfl) (by nofun) (.wakeAll (i := 0) rfl (by decide)), fun i => by simp⟩
  have hreturn := hlast.next ⟨.barrierReturn (i := 0) rfl (.unlock rfl), fun i => by simp⟩
  have hcount := hreturn.next ⟨.countElements (i := 0) rfl, fun i => by simp⟩
  have hresetState := hcount.next ⟨.resetState (i := 0) rfl, fun i => by simp⟩
  have hresetNext := hresetState.next ⟨.resetNext (i := 0) rfl, fun i => by simp⟩
  have hkey := hresetNext.next ⟨.shuffle (i := 0) rfl rfl, fun i => by simp⟩
  have htake := hkey.next ⟨.shuffle (i := 0) rfl rfl, fun i => by simp⟩
  have hskip := htake.next ⟨.shuffle (i := 0) rfl rfl, fun i => by simp⟩
  have hpush := hskip.next ⟨.shuffle (i := 0) rfl rfl, fun i => by simp⟩
  have hfinish := hpush.next ⟨.shuffle (i := 0) rfl rfl, fun i => by simp⟩
  have hcountShuffled := hfinish.next ⟨.countShuffled (i := 0) rfl, fun i => by simp⟩
  have hresetState' := hcountShuffled.next ⟨.resetState (i := 0) rfl, fun i => by simp⟩
  have hresetNext' := hresetState'.next ⟨.resetNext (i := 0) rfl, fun i => by simp⟩
  have henter' := hresetNext'.next ⟨.barrier (by rfl) (by nofun) (.enter (i := 0) rfl), fun i => by simp⟩
  have hlock' := henter'.next ⟨.barrier (by rfl) (by nofun) (.lock (i := 0) rfl rfl), fun i => by simp⟩
  have hlast' := hlock'.next
    ⟨.barrier (by rfl) (by nofun) (.wakeAll (i := 0) rfl (by decide)), fun i => by simp⟩
  have hreturn' := hlast'.next ⟨.barrierReturn (i := 0) rfl (.unlock rfl), fun i => by simp⟩
  have hreduceLoad := hreturn'.next ⟨.reduceLoad (i := 0) rfl, fun i => by simp⟩
  have hreduceNext := hreduceLoad.next ⟨.reduceNext (i := 0) rfl, fun i => by simp⟩
  have hreduce := hreduceNext.next ⟨.reduce (i := 0) rfl rfl rfl, fun i => by simp⟩
  have hemit := hreduce.next ⟨.emit3 (i := 0) rfl rfl, fun i => by simp⟩
  have hreduceCount := hemit.next ⟨.reduceCount (i := 0) rfl rfl rfl, fun i => by simp⟩
  have hreduceOut := hreduceCount.next ⟨.reduceNext (i := 0) rfl, fun i => by simp⟩
  exact ⟨_, _, hreduceOut, fun i => by rw [Subsingleton.elim i 0]; rfl, rfl⟩

end Job

end OsExercises.MapReduce
