import OsExercises.MapReduce.Phases

/-!
# Where the pairs are

Every pair that `map` has emitted is in the vector of a worker, in `beforeShuffle`, in the vector that
the shuffle fills, or in `afterShuffle`, and every pair that `reduce` emits goes to `outputVec`. No
step loses a pair or makes one.
-/

namespace OsExercises.MapReduce

open Function (update)

/-- The places where a worker has pairs for `outputVec`. -/
def Point.emitting {K V : Type} : Point K V → Bool
  | .reducePhase (.count _) => true
  | _ => false

/-- The pairs that a worker has in hand: in its vector until that is pushed, and in the vector that the
shuffle fills. -/
def Worker.inHand {K V OutputPair : Type} (worker : Worker K V OutputPair) : Multiset (K × V) :=
  match worker.point with
  | .mapPhase _ => worker.intermediateVec
  | .pushBack => worker.intermediateVec
  | .shufflePhase point => point.temp
  | _ => 0

def Worker.unemitted {K V OutputPair : Type} (worker : Worker K V OutputPair) : Multiset OutputPair :=
  worker.toEmit

theorem flatMap_emitted_concat {α β : Type} (calls : List (Call α β)) (call : Call α β) :
    ((calls ++ [call]).flatMap Call.emitted : Multiset β) =
      calls.flatMap Call.emitted + call.emitted := by
  rw [List.flatMap_append, List.flatMap_singleton, ← Multiset.coe_add]

namespace Job

variable {n : Nat} {InputPair K V OutputPair : Type} {client : Client InputPair K V OutputPair}
  {inputVec : List InputPair} {outputVec : List OutputPair} {s s' : Job n InputPair K V OutputPair}

/-- The pairs emitted by `emit2`. -/
def intermediatePairs (s : Job n InputPair K V OutputPair) : List (K × V) :=
  s.mapCalls.flatMap Call.emitted

/-- The pairs that `reduce` was to emit by `emit3`. -/
def outputPairs (s : Job n InputPair K V OutputPair) : List OutputPair :=
  s.reduceCalls.flatMap Call.emitted

structure Books (client : Client InputPair K V OutputPair) (inputVec : List InputPair)
    (outputVec : List OutputPair) (s : Job n InputPair K V OutputPair) : Prop where
  mapCalls : ∀ call ∈ s.mapCalls,
    inputVec[call.index]? = some call.argument ∧ client.map call.argument call.emitted
  pairs : (s.beforeShuffle.flatten : Multiset (K × V)) + s.afterShuffle.flatten +
    total Worker.inHand s.workers = s.intermediatePairs
  outputs : ∃ grown, s.outputVec = outputVec ++ grown ∧
    (grown : Multiset OutputPair) + total Worker.unemitted s.workers = s.outputPairs
  idle : ∀ i, (s.workers i).point.emitting = false → (s.workers i).toEmit = []

namespace Books

theorem create : Books client inputVec outputVec (create n K V inputVec outputVec) where
  mapCalls _ hcall := by cases hcall
  pairs := by
    have hhand : total Worker.inHand (Job.create n K V inputVec outputVec).workers = 0 :=
      total_eq_zero fun _ => rfl
    rw [hhand]
    rfl
  outputs := by
    have hunemitted : total Worker.unemitted (Job.create n K V inputVec outputVec).workers = 0 :=
      total_eq_zero fun _ => rfl
    refine ⟨[], (List.append_nil _).symm, ?_⟩
    rw [hunemitted]
    rfl
  idle _ _ := rfl

/-- One worker moves. -/
theorem move (h : Books client inputVec outputVec s) {i : Fin n} {worker : Worker K V OutputPair}
    (hworkers : s'.workers = update s.workers i worker)
    (hcalls : ∀ call ∈ s'.mapCalls,
      inputVec[call.index]? = some call.argument ∧ client.map call.argument call.emitted)
    (hpairs : (s'.beforeShuffle.flatten : Multiset (K × V)) + s'.afterShuffle.flatten +
      worker.inHand + s.intermediatePairs =
      s.beforeShuffle.flatten + s.afterShuffle.flatten + (s.workers i).inHand + s'.intermediatePairs)
    (emitted : List OutputPair) (hemitted : s'.outputVec = s.outputVec ++ emitted)
    (houtputs : (emitted : Multiset OutputPair) + worker.unemitted + s.outputPairs =
      (s.workers i).unemitted + s'.outputPairs)
    (hidle : worker.point.emitting = false → worker.toEmit = []) :
    Books client inputVec outputVec s' := by
  constructor
  · exact hcalls
  · have hhand := total_update Worker.inHand s.workers i worker
    have hbefore := h.pairs
    rw [hworkers]
    apply add_right_cancel (b := (s.workers i).inHand + (s.intermediatePairs : Multiset (K × V)))
    calc (s'.beforeShuffle.flatten : Multiset (K × V)) + s'.afterShuffle.flatten +
          total Worker.inHand (update s.workers i worker) +
          ((s.workers i).inHand + s.intermediatePairs)
      _ = s'.beforeShuffle.flatten + s'.afterShuffle.flatten + s.intermediatePairs +
          (total Worker.inHand (update s.workers i worker) + (s.workers i).inHand) := by abel
      _ = s'.beforeShuffle.flatten + s'.afterShuffle.flatten + worker.inHand + s.intermediatePairs +
          total Worker.inHand s.workers := by rw [hhand]; abel
      _ = s.beforeShuffle.flatten + s.afterShuffle.flatten + total Worker.inHand s.workers +
          ((s.workers i).inHand + s'.intermediatePairs) := by rw [hpairs]; abel
      _ = s'.intermediatePairs + ((s.workers i).inHand + s.intermediatePairs) := by
          rw [hbefore]; abel
  · obtain ⟨grown, hgrown, hbalance⟩ := h.outputs
    have hunemitted := total_update Worker.unemitted s.workers i worker
    refine ⟨grown ++ emitted, ?_, ?_⟩
    · rw [hemitted, hgrown, List.append_assoc]
    · rw [hworkers, ← Multiset.coe_add]
      apply add_right_cancel (b := (s.workers i).unemitted + (s.outputPairs : Multiset OutputPair))
      calc (grown : Multiset OutputPair) + emitted +
            total Worker.unemitted (update s.workers i worker) +
            ((s.workers i).unemitted + s.outputPairs)
        _ = grown + emitted + s.outputPairs +
            (total Worker.unemitted (update s.workers i worker) + (s.workers i).unemitted) := by abel
        _ = grown + total Worker.unemitted s.workers +
            (emitted + worker.unemitted + s.outputPairs) := by rw [hunemitted]; abel
        _ = s'.outputPairs + ((s.workers i).unemitted + s.outputPairs) := by
            rw [hbalance, houtputs]; abel
  · intro j hj
    rw [hworkers] at hj ⊢
    by_cases heq : j = i
    · rw [heq, Function.update_self] at hj ⊢
      exact hidle hj
    · rw [Function.update_of_ne heq] at hj ⊢
      exact h.idle j hj

/-- One worker moves, and the pairs stay where they are. -/
theorem quiet (h : Books client inputVec outputVec s) {i : Fin n} {point : Point K V}
    {worker : Worker K V OutputPair} (hi : (s.workers i).point = point)
    (hworkers : s'.workers = update s.workers i worker) (hmapCalls : s'.mapCalls = s.mapCalls)
    (hreduceCalls : s'.reduceCalls = s.reduceCalls) (hbefore : s'.beforeShuffle = s.beforeShuffle)
    (hafter : s'.afterShuffle = s.afterShuffle) (houtput : s'.outputVec = s.outputVec)
    (hhand : worker.inHand =
      Worker.inHand ⟨point, (s.workers i).intermediateVec, (s.workers i).toEmit⟩)
    (hempty : (s.workers i).toEmit = []) (hnew : worker.toEmit = (s.workers i).toEmit) :
    Books client inputVec outputVec s' := by
  subst hi
  refine h.move hworkers ?_ ?_ [] ?_ ?_ ?_
  · rw [hmapCalls]
    exact h.mapCalls
  · rw [hbefore, hafter, hhand, intermediatePairs, intermediatePairs, hmapCalls]
  · rw [houtput, List.append_nil]
  · rw [Worker.unemitted, Worker.unemitted, hnew, outputPairs, outputPairs, hreduceCalls]
    exact congrArg (· + _) (zero_add _)
  · exact fun _ => hnew.trans hempty

theorem toEmit_eq_nil (h : Books client inputVec outputVec s) {i : Fin n} {point : Point K V}
    (hi : (s.workers i).point = point) (hpoint : point.emitting = false) :
    (s.workers i).toEmit = [] := by
  apply h.idle i
  rw [hi, hpoint]

theorem own (h : Books client inputVec outputVec s) {i : Fin n}
    (hstep : Step client inputVec s (.own i) s') : Books client inputVec outputVec s' := by
  cases hstep with
  | @map _ index pair emitted hi hpair hemitted =>
      have hunemitted := h.toEmit_eq_nil hi rfl
      refine h.move (i := i) rfl ?_ ?_ [] (List.append_nil _).symm ?_ fun _ => hunemitted
      · intro call hcall
        rcases List.mem_append.mp hcall with hmem | hlast
        · exact h.mapCalls call hmem
        · rw [List.mem_singleton.mp hlast]
          exact ⟨hpair, hemitted⟩
      · have hhand : (s.workers i).inHand = (s.workers i).intermediateVec := by
          rw [Worker.inHand, hi]
        have hafter := flatMap_emitted_concat s.mapCalls ⟨index, pair, emitted⟩
        rw [hhand, intermediatePairs, intermediatePairs, hafter, Worker.inHand]
        change _ + (((s.workers i).intermediateVec ++ emitted : List (K × V)) : Multiset (K × V)) +
          _ = _
        rw [← Multiset.coe_add]
        change (s.beforeShuffle.flatten : Multiset (K × V)) + s.afterShuffle.flatten + _ + _ = _
        abel
      · exact congrArg (· + _) (zero_add _)
  | sort hi hsorts =>
      exact h.quiet hi rfl rfl rfl rfl rfl rfl (Multiset.coe_eq_coe.mpr hsorts.1)
        (h.toEmit_eq_nil hi rfl) rfl
  | pushBack hi =>
      have hunemitted := h.toEmit_eq_nil hi rfl
      refine h.move (i := i) rfl h.mapCalls ?_ [] (List.append_nil _).symm ?_
        fun _ => hunemitted
      · have hhand : (s.workers i).inHand = (s.workers i).intermediateVec := by
          rw [Worker.inHand, hi]
        change ((s.beforeShuffle ++ [(s.workers i).intermediateVec]).flatten : Multiset (K × V)) +
          s.afterShuffle.flatten + 0 + s.intermediatePairs = _ + s.intermediatePairs
        rw [hhand, List.flatten_append, List.flatten_singleton, ← Multiset.coe_add]
        abel
      · exact congrArg (· + _) (zero_add _)
  | @resetNext _ stage hi =>
      refine h.quiet hi rfl rfl rfl rfl rfl rfl ?_ (h.toEmit_eq_nil hi rfl) rfl
      cases stage <;> rfl
  | @shuffle _ point _ shuffle hi hshuffle =>
      have hunemitted := h.toEmit_eq_nil hi rfl
      refine h.move (i := i) rfl h.mapCalls ?_ [] (List.append_nil _).symm ?_
        fun _ => hunemitted
      · have hhand : (s.workers i).inHand = point.temp := by rw [Worker.inHand, hi]
        have hpairs := Multiset.coe_eq_coe.mpr (Shuffle.pairs_step hshuffle)
        rw [← Multiset.coe_add, ← Multiset.coe_add, ← Multiset.coe_add, ← Multiset.coe_add] at hpairs
        rw [hhand, ← hpairs]
        rfl
      · exact congrArg (· + _) (zero_add _)
  | mapLoad hi | mapNext hi | mapCount hi | countElements hi | resetState hi
  | countShuffled hi | reduceLoad hi | reduceNext hi =>
      exact h.quiet hi rfl rfl rfl rfl rfl rfl rfl (h.toEmit_eq_nil hi rfl) rfl
  | @reduce _ index vec emitted hi _ _ =>
      refine h.move (i := i) rfl h.mapCalls ?_ [] (List.append_nil _).symm ?_ nofun
      · rw [Worker.inHand, Worker.inHand, hi]
        rfl
      · have hunemitted : (s.workers i).unemitted = 0 :=
          congrArg _ (h.toEmit_eq_nil hi rfl)
        have hafter := flatMap_emitted_concat s.reduceCalls ⟨index, vec, emitted⟩
        rw [hunemitted, outputPairs, outputPairs, hafter, Worker.unemitted, Multiset.coe_nil]
        abel
  | @emit3 _ index pair rest hi hpair =>
      refine h.move (i := i) rfl h.mapCalls ?_ [pair] rfl ?_ ?_
      · rfl
      · have hunemitted : (s.workers i).unemitted = {pair} + (rest : Multiset OutputPair) := by
          rw [Worker.unemitted, hpair, Multiset.singleton_add, Multiset.cons_coe]
        rw [hunemitted]
        rfl
      · intro hpoint
        rw [show (s.workers i).point = _ from hi] at hpoint
        cases hpoint
  | reduceCount hi hempty _ => exact h.quiet hi rfl rfl rfl rfl rfl rfl rfl hempty rfl

theorem step (h : Books client inputVec outputVec s) {event : JobEvent n}
    (hstep : Step client inputVec s event s') : Books client inputVec outputVec s' := by
  cases event with
  | own i => exact h.own hstep
  | barrier event =>
      cases hstep with
      | barrier _ _ _ => exact ⟨h.mapCalls, h.pairs, h.outputs, h.idle⟩
      | @barrierReturn i _ hi _ =>
          have hpoint : (s.workers i).point.emitting = false := by
            generalize (s.workers i).point = point at hi
            cases point <;> first | rfl | cases hi
          refine h.quiet (i := i) rfl rfl rfl rfl rfl rfl rfl ?_ (h.idle i hpoint) rfl
          generalize (s.workers i).point = point at hi
          cases point with
          | firstBarrier =>
              by_cases hid : i.val = 0
              · simp [Worker.inHand, Point.behindBarrier, hid]
              · simp [Worker.inHand, Point.behindBarrier, hid]
          | secondBarrier => rfl
          | _ => cases hi

end Books

end Job

end OsExercises.MapReduce
