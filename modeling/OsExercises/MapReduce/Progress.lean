import OsExercises.MapReduce.Leader
import Mathlib.Tactic.Positivity

/-!
# The progress of a job

`getJobState` reads the word of a job: the stage, and how many of its elements are done. As long as
the numbers fit their fields, the word never goes back and is exact. The percentage is the quotient of
the two numbers, so a stage without elements has none.
-/

namespace OsExercises.MapReduce

/-- `getJobState`: the percentage, if the total that it divides by is not zero. -/
def percentage (x : Nat) : Option Rat :=
  if getTotalBits x = 0 then none else some (getCountBits x / getTotalBits x * 100)

theorem Point.stage_ne_undefined {K V : Type} (point : Point K V) : point.stage ≠ .undefined := by
  cases point with
  | resetState stage _ => cases stage <;> nofun
  | resetNext stage => cases stage <;> nofun
  | _ => nofun

theorem Point.map_lt_stage {K V : Type} {point : Point K V} (hstage : point.stage ≠ .map) :
    Stage.map.value < point.stage.value := by
  have hdefined := point.stage_ne_undefined
  generalize point.stage = stage at hstage hdefined
  cases stage with
  | undefined => exact absurd rfl hdefined
  | map => exact absurd rfl hstage
  | shuffle => decide
  | reduce => decide

theorem Point.ne_map_of_lt {K V : Type} {point : Point K V}
    (hlt : Stage.map.value < point.stage.value) : point.stage ≠ .map := by
  intro heq
  rw [heq] at hlt
  exact lt_irrefl _ hlt

namespace Job

variable {n : Nat} {InputPair K V OutputPair : Type} {client : Client InputPair K V OutputPair}
  {inputVec : List InputPair} {outputVec : List OutputPair} {s s' : Job n InputPair K V OutputPair}
  {first : Fin n} {count : Nat}

/-- The count does not pass the number of elements. -/
theorem JobInv.count_le (h : JobInv client inputVec outputVec first s count) :
    count ≤ s.elements inputVec (s.workers first).point.stage := by
  have hlength := h.books.length_eq
  have hmapping : Mapping client inputVec s count → count ≤ inputVec.length := by
    intro hstage
    obtain ⟨claimed, hclaims⟩ := hstage.claims
    have hle := hclaims.done_le_weightOf
    rwa [weightOf_one] at hle
  have hshuffling : ∀ point : ShufflePoint K V, point.temp = [] →
      Shuffling client inputVec s point count → count ≤ s.intermediatePairs.length := by
    intro point htemp hstage
    have hcount := hstage.count
    rw [htemp, List.length_nil] at hcount
    omega
  have hreducing : Reducing client inputVec s count → count ≤ s.intermediatePairs.length := by
    intro hstage
    obtain ⟨claimed, hclaims⟩ := hstage.claims
    have hle := hclaims.done_le_weightOf
    rwa [weightOf_weightAt, hstage.pairs] at hle
  have hstage := h.stage
  generalize hpoint : (s.workers first).point = point at hstage
  cases point with
  | mapPhase _ => exact hmapping hstage
  | pushBack => exact hmapping hstage
  | firstBarrier => exact hmapping hstage
  | countElements => exact hmapping hstage
  | resetState stage _ =>
      cases stage with
      | shuffle => exact hmapping hstage.1
      | reduce => exact hshuffling .out rfl hstage.1
      | _ => exact hstage.elim
  | resetNext stage =>
      cases stage with
      | shuffle => exact hshuffling .key rfl hstage
      | reduce =>
          obtain ⟨-, -, -, rfl⟩ := hstage
          exact Nat.zero_le _
      | _ => exact hstage.elim
  | shufflePhase point =>
      have htaken := h.books.taken_le hpoint
      rw [← Shuffling.count hstage] at htaken
      exact htaken
  | secondBarrier => exact hreducing hstage
  | reducePhase _ => exact hreducing hstage

theorem elements_lt (hsize : inputVec.length < 2 ^ 31) (hfew : s.intermediatePairs.length < 2 ^ 31)
    (stage : Stage) : s.elements inputVec stage < 2 ^ 31 := by
  cases stage <;> first | exact hsize | exact hfew

/-- The word says how many elements of the stage are done. -/
theorem JobInv.decodes (h : JobInv client inputVec outputVec first s count)
    (hsize : inputVec.length < 2 ^ 31) (hfew : s.intermediatePairs.length < 2 ^ 31) :
    Decodes (s.workers first).point.stage (s.elements inputVec (s.workers first).point.stage) count
      s.atomicState := by
  rw [h.stage.word]
  exact decodes_jobWord (elements_lt hsize hfew _) h.count_le

/-- When all workers have returned, all pairs are counted. -/
theorem JobInv.count_of_done (h : JobInv client inputVec outputVec first s count) (hdone : s.Done) :
    count = s.intermediatePairs.length := by
  have hreducing := h.reducing hdone
  obtain ⟨claimed, hclaims⟩ := hreducing.claims
  have hcount := hclaims.complete first.pos fun i => congrArg Point.reducePoint (hdone i)
  rwa [weightOf_weightAt, hreducing.pairs] at hcount

/-- **The progress.** From a state of a job to a later one, stage and count do not go back, and the
total of a stage does not change. In every state the total is the number of elements of the stage, and
the count is not above it. When all workers have returned, all pairs are reduced. -/
theorem progress_exact (hn : 1 ≤ n) (hworkers : n < 2 ^ 31)
    (client : Client InputPair K V OutputPair) {inputVec : List InputPair}
    (hsize : inputVec.length < 2 ^ 31) (outputVec : List OutputPair)
    {events events' : List (JobEvent n)} {s s' : Job n InputPair K V OutputPair}
    (hrun : Run (Meeting (Step client inputVec) NotEarly) (create n K V inputVec outputVec) events s)
    (hrun' : Run (Meeting (Step client inputVec) NotEarly) s events' s')
    (hfew : s'.intermediatePairs.length < 2 ^ 31) :
    (getStageBits s.atomicState < getStageBits s'.atomicState ∨
      getStageBits s.atomicState = getStageBits s'.atomicState ∧
        getCountBits s.atomicState ≤ getCountBits s'.atomicState ∧
        getTotalBits s.atomicState = getTotalBits s'.atomicState) ∧
    (∃ stage : Stage, getStageBits s'.atomicState = stage.value ∧
      getTotalBits s'.atomicState = s'.elements inputVec stage) ∧
    getCountBits s'.atomicState ≤ getTotalBits s'.atomicState ∧
    (s'.Done → getStageBits s'.atomicState = Stage.reduce.value ∧
      getCountBits s'.atomicState = s'.intermediatePairs.length ∧
      getTotalBits s'.atomicState = s'.intermediatePairs.length) := by
  have hfirst : (⟨0, hn⟩ : Fin n).val = 0 := rfl
  have hfewer := (few_of_run hrun').trans_lt hfew
  obtain ⟨count, h⟩ := jobInv_of_run hfirst hworkers hsize hrun hfewer
  obtain ⟨count', h', hlater, hsame⟩ := h.run hfirst hworkers hsize hrun' hfew
  have hword := h.decodes hsize hfewer
  have hword' := h'.decodes hsize hfew
  refine ⟨?_, ⟨_, hword'.stageBits, hword'.totalBits⟩, ?_, ?_⟩
  · rw [hword.stageBits, hword'.stageBits, hword.countBits, hword'.countBits, hword.totalBits,
      hword'.totalBits]
    rcases hlater with hlt | ⟨hstage, hle⟩
    · exact Or.inl hlt
    · right
      refine ⟨by rw [hstage], hle, ?_⟩
      rw [← hstage]
      generalize hpoint : (s.workers ⟨0, hn⟩).point.stage = stage at hsame
      cases stage with
      | undefined => exact absurd hpoint (Point.stage_ne_undefined _)
      | map => rfl
      | shuffle => exact (congrArg List.length (hsame (by decide))).symm
      | reduce => exact (congrArg List.length (hsame (by decide))).symm
  · rw [hword'.countBits, hword'.totalBits]
    exact h'.count_le
  · intro hdone
    have hstage : (s'.workers ⟨0, hn⟩).point.stage = .reduce := by rw [hdone]; rfl
    rw [hstage] at hword'
    rw [hword'.stageBits, hword'.countBits, hword'.totalBits]
    exact ⟨rfl, h'.count_of_done hdone, rfl⟩

/-- From the map stage, with one call counted, to the end. -/
theorem progress_exact_three : ∃ (s s' : Job 2 Nat Nat Nat Nat) (events : List (JobEvent 2)),
    Run (Meeting (Step echoClient [7, 5, 7]) NotEarly) s events s' ∧
    getStageBits s.atomicState = Stage.map.value ∧ getCountBits s.atomicState = 1 ∧ s'.Done ∧
    (getStageBits s.atomicState < getStageBits s'.atomicState ∨
      getStageBits s.atomicState = getStageBits s'.atomicState ∧
        getCountBits s.atomicState ≤ getCountBits s'.atomicState ∧
        getTotalBits s.atomicState = getTotalBits s'.atomicState) ∧
    getStageBits s'.atomicState = Stage.reduce.value ∧ getCountBits s'.atomicState = 3 ∧
      getTotalBits s'.atomicState = 3 := by
  obtain ⟨mapping, released, counted, done, h⟩ := exists_twoWorkers
  obtain ⟨events₁, hmapping⟩ := h.run_mapping
  obtain ⟨events₂, hrest⟩ := h.exists_rest
  have hpairs : done.intermediatePairs = [(7, 7), (5, 5), (7, 7)] := h.done_pairs
  obtain ⟨hlater, -, -, hlast⟩ := progress_exact (by decide) (by decide) echoClient (by decide) []
    hmapping hrest (by rw [hpairs]; decide)
  have hword := hlast h.done_points
  rw [hpairs] at hword
  exact ⟨mapping, done, _, hrest, h.mapping_words.1, h.mapping_words.2, h.done_points, hlater, hword⟩

/-! ### The percentage -/

theorem elements_of_ne_map {stage : Stage} (hstage : stage ≠ .map) :
    s.elements inputVec stage = s.intermediatePairs.length := by
  cases stage <;> first | rfl | exact absurd rfl hstage

/-- What a client that polls the job relies on. -/
def Reported (s : Job n InputPair K V OutputPair) : Prop :=
  ∃ p, percentage s.atomicState = some p ∧ 0 ≤ p ∧ p ≤ 100 ∧
    (s.Done → getStageBits s.atomicState = Stage.reduce.value ∧ p = 100)

theorem JobInv.reported_iff (h : JobInv client inputVec outputVec first s count)
    (hsize : inputVec.length < 2 ^ 31) (hfew : s.intermediatePairs.length < 2 ^ 31) :
    s.Reported ↔ s.elements inputVec (s.workers first).point.stage ≠ 0 := by
  have hword := h.decodes hsize hfew
  have hle := h.count_le
  constructor
  · rintro ⟨p, hp, -⟩ hzero
    rw [percentage, if_pos (hword.totalBits.trans hzero)] at hp
    cases hp
  · intro hpos
    have htotal : getTotalBits s.atomicState ≠ 0 := hword.totalBits ▸ hpos
    refine ⟨_, if_neg htotal, ?_, ?_, ?_⟩
    · positivity
    · rw [hword.countBits, hword.totalBits]
      have htotal' : (0 : Rat) < s.elements inputVec (s.workers first).point.stage := by
        exact_mod_cast Nat.pos_of_ne_zero hpos
      have hle' : (count : Rat) ≤ s.elements inputVec (s.workers first).point.stage := by
        exact_mod_cast hle
      calc (count : Rat) / s.elements inputVec (s.workers first).point.stage * 100
        _ ≤ 1 * 100 := mul_le_mul_of_nonneg_right (div_le_one_of_le₀ hle' htotal'.le) (by norm_num)
        _ = 100 := one_mul 100
    · intro hdone
      have hcount := h.count_of_done hdone
      have hstage : (s.workers first).point.stage = .reduce := by rw [hdone]; rfl
      rw [hstage] at hword hpos
      refine ⟨hword.stageBits, ?_⟩
      have hne : (s.intermediatePairs.length : Rat) ≠ 0 := by exact_mod_cast hpos
      have htotal : getTotalBits s.atomicState = s.intermediatePairs.length := hword.totalBits
      rw [hword.countBits, htotal, hcount, div_self hne, one_mul]

/-- In every state of a run the percentage is defined, and it ends at 100, exactly when the job has
input and, once it shuffles, a pair to shuffle. -/
theorem reported_run_iff (hn : 1 ≤ n) (hworkers : n < 2 ^ 31)
    (client : Client InputPair K V OutputPair) {inputVec : List InputPair}
    (hsize : inputVec.length < 2 ^ 31) (outputVec : List OutputPair)
    {events : List (JobEvent n)} {s : Job n InputPair K V OutputPair}
    (hrun : Run (Meeting (Step client inputVec) NotEarly) (create n K V inputVec outputVec) events s)
    (hfew : s.intermediatePairs.length < 2 ^ 31) :
    (∀ events₁ events₂ (middle : Job n InputPair K V OutputPair),
      Run (Meeting (Step client inputVec) NotEarly) (create n K V inputVec outputVec) events₁ middle →
      Run (Meeting (Step client inputVec) NotEarly) middle events₂ s → middle.Reported) ↔
    inputVec ≠ [] ∧ ((s.workers ⟨0, hn⟩).point.stage ≠ .map → s.intermediatePairs ≠ []) := by
  have hfirst : (⟨0, hn⟩ : Fin n).val = 0 := rfl
  obtain ⟨count, h⟩ := jobInv_of_run hfirst hworkers hsize hrun hfew
  have hstart : JobInv client inputVec outputVec ⟨0, hn⟩ (create n K V inputVec outputVec) 0 :=
    JobInv.create hsize
  constructor
  · intro hall
    constructor
    · have hreported := hall [] events _ .start hrun
      have hpos := (hstart.reported_iff hsize (Nat.two_pow_pos 31)).mp hreported
      exact List.length_pos_iff.mp (Nat.pos_of_ne_zero hpos)
    · intro hstage
      have hreported := hall events [] _ hrun .start
      have hpos := (h.reported_iff hsize hfew).mp hreported
      rw [elements_of_ne_map hstage] at hpos
      exact List.length_pos_iff.mp (Nat.pos_of_ne_zero hpos)
  · rintro ⟨hinput, hpairs⟩ events₁ events₂ middle hbefore hafter
    have hfewer := (few_of_run hafter).trans_lt hfew
    obtain ⟨count', h'⟩ := jobInv_of_run hfirst hworkers hsize hbefore hfewer
    obtain ⟨count'', h'', hlater, hsame⟩ := h'.run hfirst hworkers hsize hafter hfew
    apply (h'.reported_iff hsize hfewer).mpr
    by_cases hmap : (middle.workers ⟨0, hn⟩).point.stage = .map
    · rw [hmap]
      exact List.length_eq_zero_iff.not.mpr hinput
    · have hbehind := Point.map_lt_stage hmap
      have hlast := Point.ne_map_of_lt (hbehind.trans_le hlater.value_le)
      rw [elements_of_ne_map hmap, ← hsame hbehind]
      exact List.length_eq_zero_iff.not.mpr (hpairs hlast)

theorem reported_run_three : ∃ s s' : Job 2 Nat Nat Nat Nat,
    getCountBits s.atomicState = 1 ∧ s.Reported ∧ s'.Done ∧ s'.Reported := by
  obtain ⟨mapping, released, counted, done, h⟩ := exists_twoWorkers
  obtain ⟨events₁, hmapping⟩ := h.run_mapping
  obtain ⟨events₂, hrest⟩ := h.exists_rest
  have hpairs : done.intermediatePairs = [(7, 7), (5, 5), (7, 7)] := h.done_pairs
  have hiff := reported_run_iff (by decide) (by decide) echoClient (by decide) []
    (hmapping.append hrest) (by rw [hpairs]; decide)
  have hall := hiff.mpr ⟨by simp, fun _ => by simp [hpairs]⟩
  exact ⟨mapping, done, h.mapping_words.2, hall _ _ mapping hmapping hrest, h.done_points,
    hall _ _ done (hmapping.append hrest) .start⟩

/-- A job without input has no percentage from its start on. -/
theorem not_reported_empty : ¬ ∀ (n : Nat) (client : Client Nat Nat Nat Nat) (inputVec : List Nat)
    (events : List (JobEvent n)) (s : Job n Nat Nat Nat Nat), 1 ≤ n → n < 2 ^ 31 →
    inputVec.length < 2 ^ 31 →
    Run (Meeting (Step client inputVec) NotEarly) (create n Nat Nat inputVec []) events s →
    s.intermediatePairs.length < 2 ^ 31 → s.Reported := by
  intro hall
  obtain ⟨p, hp, -⟩ := hall 1 echoClient [] [] _ (by decide) (by decide) (by decide) .start (by decide)
  have hnone : percentage (create 1 Nat Nat ([] : List Nat) ([] : List Nat)).atomicState = none := by
    decide +kernel
  rw [hnone] at hp
  cases hp

end Job

end OsExercises.MapReduce
