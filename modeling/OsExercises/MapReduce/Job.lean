import OsExercises.MapReduce.Barrier
import OsExercises.MapReduce.WorkLoop
import OsExercises.MapReduce.Shuffle

/-!
# A job

`thread_flow` of `MapReduceFramework.cpp`, run by `n` workers whose steps come in any order: loads and
`fetch_add`s of the two atomic counters, calls of the client, `push_back`s under the mutex of the job,
the steps of the barrier and those of the shuffle. The pairs that `map` emits go into a vector of the
worker, so a call of `map` is one step. The pairs that `reduce` emits go into the shared `outputVec`
one by one.

`mapCalls` and `reduceCalls` list the calls of the client. They are not in the source: the claims
about the job are about them.
-/

namespace OsExercises.MapReduce

open Function (update)

/-- `operator<` on the intermediate keys, and what a call of `map` or `reduce` may emit. -/
structure Client (InputPair K V OutputPair : Type) where
  less : K → K → Bool
  map : InputPair → List (K × V) → Prop
  reduce : IntermediateVec K V → List OutputPair → Prop

/-- A client on numbers: it maps each to itself, and gives the values of a group back. -/
def echoClient : Client Nat Nat Nat Nat where
  less a b := a < b
  map x emitted := emitted = [(x, x)]
  reduce vec emitted := emitted = vec.map Prod.snd

/-- Where a worker is in `thread_flow`. `mapPhase .out` is in front of the sort, and
`reducePhase .out` behind the function. -/
inductive Point (K V : Type) where
  | mapPhase (point : LoopPoint)
  | pushBack
  | firstBarrier
  | countElements
  | resetState (stage : Stage) (totalElements : Nat)
  | resetNext (stage : Stage)
  | shufflePhase (point : ShufflePoint K V)
  | secondBarrier
  | reducePhase (point : LoopPoint)

/-- Where `barrier()` returns to. -/
def Point.behindBarrier {K V : Type} (id : Nat) : Point K V → Point K V
  | .firstBarrier => if id = 0 then .countElements else .secondBarrier
  | .secondBarrier => .reducePhase .load
  | point => point

def Point.atBarrier {K V : Type} : Point K V → Bool
  | .firstBarrier => true
  | .secondBarrier => true
  | _ => false

/-- `ThreadContext`, with the pairs that a call of `reduce` has still to emit. -/
structure Worker (K V OutputPair : Type) where
  point : Point K V
  intermediateVec : IntermediateVec K V
  toEmit : List OutputPair

structure Call (α β : Type) where
  index : Nat
  argument : α
  emitted : List β

structure Job (n : Nat) (InputPair K V OutputPair : Type) where
  atomicState : Nat
  atomicNextToProcess : Int32
  beforeShuffle : List (IntermediateVec K V)
  afterShuffle : List (IntermediateVec K V)
  outputVec : List OutputPair
  barrier : Barrier n
  workers : Fin n → Worker K V OutputPair
  mapCalls : List (Call InputPair (K × V))
  reduceCalls : List (Call (IntermediateVec K V) OutputPair)

/-- A worker moves on its own, or in the barrier. -/
inductive JobEvent (n : Nat) where
  | own (i : Fin n)
  | barrier (event : BarrierEvent n)

/-- The thread that moves. -/
def BarrierEvent.thread {n : Nat} : BarrierEvent n → Fin n
  | .enter i => i
  | .lock i => i
  | .count i => i
  | .wakeUp i => i
  | .relock i => i
  | .unlock i => i

/-- `std::sort` with `sort_helper`. It may be given strict weak orders only. -/
def Sorts {K V : Type} (less : K → K → Bool) (vec vec' : IntermediateVec K V) : Prop :=
  vec'.Perm vec ∧ (IsStrictWeakOrder K (KeyLT less) → SortedVec less vec')

namespace Job

variable {n : Nat} {InputPair K V OutputPair : Type}

/-- `create_job`. -/
def create (n : Nat) (K V : Type) (inputVec : List InputPair) (outputVec : List OutputPair) :
    Job n InputPair K V OutputPair where
  atomicState := resetWord .map inputVec.length
  atomicNextToProcess := 0
  beforeShuffle := []
  afterShuffle := []
  outputVec := outputVec
  barrier := .new n
  workers := fun _ => ⟨.mapPhase .load, [], []⟩
  mapCalls := []
  reduceCalls := []

def countElements (s : Job n InputPair K V OutputPair) : Stage → Nat
  | .shuffle => (s.beforeShuffle.map List.length).sum
  | .reduce => (s.afterShuffle.map List.length).sum
  | _ => 0

def setWorker (s : Job n InputPair K V OutputPair) (i : Fin n) (worker : Worker K V OutputPair) :
    Job n InputPair K V OutputPair :=
  { s with workers := update s.workers i worker }

def goTo (s : Job n InputPair K V OutputPair) (i : Fin n) (point : Point K V) :
    Job n InputPair K V OutputPair :=
  s.setWorker i { s.workers i with point := point }

theorem setWorker_self (s : Job n InputPair K V OutputPair) (i : Fin n)
    (worker : Worker K V OutputPair) : (s.setWorker i worker).workers i = worker := by
  simp [setWorker]

theorem setWorker_of_ne (s : Job n InputPair K V OutputPair) {i j : Fin n} (hne : j ≠ i)
    (worker : Worker K V OutputPair) : (s.setWorker i worker).workers j = s.workers j := by
  simp [setWorker, hne]

/-- `reset_counter` comes before the shuffle and behind it. -/
def behindReset : Stage → Point K V
  | .shuffle => .shufflePhase .key
  | _ => .secondBarrier

inductive Step (client : Client InputPair K V OutputPair) (inputVec : List InputPair) :
    Job n InputPair K V OutputPair → JobEvent n → Job n InputPair K V OutputPair → Prop where
  | mapLoad {s : Job n InputPair K V OutputPair} {i : Fin n} :
      (s.workers i).point = .mapPhase .load →
      Step client inputVec s (.own i) (s.goTo i (.mapPhase (.guarded s.atomicState)))
  | mapNext {s : Job n InputPair K V OutputPair} {i : Fin n} :
      (s.workers i).point = .mapPhase .next →
      Step client inputVec s (.own i)
        { s.goTo i (.mapPhase (.claimed inputVec.length (asUInt64 s.atomicNextToProcess))) with
          atomicNextToProcess := s.atomicNextToProcess + 1 }
  | map {s : Job n InputPair K V OutputPair} {i : Fin n} {index : Nat} {pair : InputPair}
      {emitted : List (K × V)} :
      (s.workers i).point = .mapPhase (.call index) → inputVec[index]? = some pair →
      client.map pair emitted →
      Step client inputVec s (.own i)
        { s.setWorker i { s.workers i with
            point := .mapPhase (.count index)
            intermediateVec := (s.workers i).intermediateVec ++ emitted } with
          mapCalls := s.mapCalls ++ [⟨index, pair, emitted⟩] }
  | mapCount {s : Job n InputPair K V OutputPair} {i : Fin n} {index : Nat} :
      (s.workers i).point = .mapPhase (.count index) →
      Step client inputVec s (.own i)
        { s.goTo i (.mapPhase (.guarded s.atomicState)) with
          atomicState := fetchAdd s.atomicState 1 }
  | sort {s : Job n InputPair K V OutputPair} {i : Fin n} {vec : IntermediateVec K V} :
      (s.workers i).point = .mapPhase .out →
      Sorts client.less (s.workers i).intermediateVec vec →
      Step client inputVec s (.own i)
        (s.setWorker i { s.workers i with point := .pushBack, intermediateVec := vec })
  | pushBack {s : Job n InputPair K V OutputPair} {i : Fin n} :
      (s.workers i).point = .pushBack →
      Step client inputVec s (.own i)
        { s.goTo i .firstBarrier with
          beforeShuffle := s.beforeShuffle ++ [(s.workers i).intermediateVec] }
  | barrier {s : Job n InputPair K V OutputPair} {event : BarrierEvent n} {barrier : Barrier n} :
      (s.workers event.thread).point.atBarrier → event ≠ .unlock event.thread →
      s.barrier.Step event barrier →
      Step client inputVec s (.barrier event) { s with barrier := barrier }
  | barrierReturn {s : Job n InputPair K V OutputPair} {i : Fin n} {barrier : Barrier n} :
      (s.workers i).point.atBarrier → s.barrier.Step (.unlock i) barrier →
      Step client inputVec s (.barrier (.unlock i))
        { s.goTo i ((s.workers i).point.behindBarrier i) with barrier := barrier }
  | countElements {s : Job n InputPair K V OutputPair} {i : Fin n} :
      (s.workers i).point = .countElements →
      Step client inputVec s (.own i) (s.goTo i (.resetState .shuffle (s.countElements .shuffle)))
  | resetState {s : Job n InputPair K V OutputPair} {i : Fin n} {stage : Stage}
      {totalElements : Nat} :
      (s.workers i).point = .resetState stage totalElements →
      Step client inputVec s (.own i)
        { s.goTo i (.resetNext stage) with atomicState := resetWord stage totalElements }
  | resetNext {s : Job n InputPair K V OutputPair} {i : Fin n} {stage : Stage} :
      (s.workers i).point = .resetNext stage →
      Step client inputVec s (.own i)
        { s.goTo i (behindReset stage) with atomicNextToProcess := 0 }
  | shuffle {s : Job n InputPair K V OutputPair} {i : Fin n} {point : ShufflePoint K V}
      {amount : Nat} {shuffle : Shuffle K V} :
      (s.workers i).point = .shufflePhase point →
      Shuffle.Step client.less ⟨s.beforeShuffle, s.afterShuffle, point⟩ amount shuffle →
      Step client inputVec s (.own i)
        { s.goTo i (.shufflePhase shuffle.point) with
          atomicState := fetchAdd s.atomicState amount
          beforeShuffle := shuffle.beforeShuffle
          afterShuffle := shuffle.afterShuffle }
  | countShuffled {s : Job n InputPair K V OutputPair} {i : Fin n} :
      (s.workers i).point = .shufflePhase .out →
      Step client inputVec s (.own i) (s.goTo i (.resetState .reduce (s.countElements .reduce)))
  | reduceLoad {s : Job n InputPair K V OutputPair} {i : Fin n} :
      (s.workers i).point = .reducePhase .load →
      Step client inputVec s (.own i) (s.goTo i (.reducePhase (.guarded s.atomicState)))
  | reduceNext {s : Job n InputPair K V OutputPair} {i : Fin n} :
      (s.workers i).point = .reducePhase .next →
      Step client inputVec s (.own i)
        { s.goTo i
            (.reducePhase (.claimed s.afterShuffle.length (asUInt64 s.atomicNextToProcess))) with
          atomicNextToProcess := s.atomicNextToProcess + 1 }
  | reduce {s : Job n InputPair K V OutputPair} {i : Fin n} {index : Nat}
      {vec : IntermediateVec K V} {emitted : List OutputPair} :
      (s.workers i).point = .reducePhase (.call index) → s.afterShuffle[index]? = some vec →
      client.reduce vec emitted →
      Step client inputVec s (.own i)
        { s.setWorker i { s.workers i with
            point := .reducePhase (.count index)
            toEmit := emitted } with
          reduceCalls := s.reduceCalls ++ [⟨index, vec, emitted⟩] }
  | emit3 {s : Job n InputPair K V OutputPair} {i : Fin n} {index : Nat} {pair : OutputPair}
      {rest : List OutputPair} :
      (s.workers i).point = .reducePhase (.count index) → (s.workers i).toEmit = pair :: rest →
      Step client inputVec s (.own i)
        { s.setWorker i { s.workers i with toEmit := rest } with
          outputVec := s.outputVec ++ [pair] }
  | reduceCount {s : Job n InputPair K V OutputPair} {i : Fin n} {index : Nat}
      {vec : IntermediateVec K V} :
      (s.workers i).point = .reducePhase (.count index) → (s.workers i).toEmit = [] →
      s.afterShuffle[index]? = some vec →
      Step client inputVec s (.own i)
        { s.goTo i (.reducePhase (.guarded s.atomicState)) with
          atomicState := fetchAdd s.atomicState vec.length }

/-- `pthread_cond_wait` returns after a broadcast only. -/
def NotEarly (_ : Job n InputPair K V OutputPair) (event : JobEvent n)
    (_ : Job n InputPair K V OutputPair) : Prop :=
  ∀ i, event ≠ .barrier (.wakeUp i)

end Job

end OsExercises.MapReduce
