import OsExercises.MapReduce.CleanUp
import OsExercises.MapReduce.Mutex
import OsExercises.MapReduce.Waiting
import Mathlib.Data.List.FinRange
import Mathlib.Data.List.Perm.Basic

/-!
# The objects of a job

The life of a job on the heap: `create_job` allocates the job with what belongs to it and a context
with a vector for every worker, `shuffle_phase` allocates a vector for every group, and
`closeJobHandle` waits for the workers and deletes everything in `free_resources`. The workers run
from the moment their threads are created. An object that is deleted has to be on the heap, and
nothing is left there in the end.
-/

namespace OsExercises.MapReduce

/-- What `new` allocates for a job. A group is known by the number of groups before it. -/
inductive JobObject (n : Nat) where
  | job
  | state
  | allThreads
  | beforeShuffle
  | afterShuffle
  | barrier
  | threadContexts
  | context (i : Fin n)
  | intermediateVec (i : Fin n)
  | group (k : Nat)
deriving DecidableEq

/-- The places of `free_resources`, in front of the deletion they are named by. -/
inductive FreePoint where
  | intermediateVec (i : Nat)
  | context (i : Nat)
  | threadContexts
  | beforeShuffle
  | group (k : Nat)
  | afterShuffle
  | state
  | barrier
  | allThreads
  | job
  | freed
deriving DecidableEq

/-- The loops of `free_resources` that have still to end. -/
def FreePoint.loops : FreePoint → Nat
  | .intermediateVec _ => 2
  | .context _ => 2
  | .threadContexts => 1
  | .beforeShuffle => 1
  | .group _ => 1
  | _ => 0

/-- Where the main thread is: in `create_job`, in front of the context or of the thread of worker
`i`; between the calls; in `waitForJob`, in front of the `pthread_join` of worker `i`, called by
`closeJobHandle` or not; in `free_resources`. -/
inductive LifePoint where
  | starting (i : Nat)
  | creating (i : Nat)
  | idle
  | joining (closing : Bool) (i : Nat)
  | freeing (point : FreePoint)
deriving DecidableEq

/-- `groups` are the pointers in `afterShuffle`, and `temp` is the one of `shuffle_phase`. -/
structure Life (n : Nat) (InputPair K V OutputPair : Type) where
  job : Job n InputPair K V OutputPair
  point : LifePoint
  started : Nat
  threadJoin : Bool
  heap : List (JobObject n)
  groups : List Nat
  temp : Option Nat
  allocated : Nat

inductive LifeEvent (n : Nat) where
  | main
  | waitForJob
  | closeJobHandle
  | worker (event : JobEvent n)

namespace Life

variable {n : Nat} {InputPair K V OutputPair : Type}

/-- Behind `reset_counter` in `create_job`. -/
def create (n : Nat) (K V : Type) (inputVec : List InputPair) (outputVec : List OutputPair) :
    Life n InputPair K V OutputPair where
  job := Job.create n K V inputVec outputVec
  point := .starting 0
  started := 0
  threadJoin := false
  heap := [.threadContexts, .beforeShuffle, .afterShuffle, .state, .barrier, .allThreads, .job]
  groups := []
  temp := none
  allocated := 0

/-- What a step of worker 0 does to the vectors of the groups: it allocates one in front of a scan,
and pushes it behind the scan. -/
def moved (s : Life n InputPair K V OutputPair) (before after : Point K V) :
    Life n InputPair K V OutputPair :=
  match before, after with
  | .shufflePhase .key, .shufflePhase (.scan _ _ _) =>
      { s with
        heap := .group s.allocated :: s.heap
        temp := some s.allocated
        allocated := s.allocated + 1 }
  | .shufflePhase (.scan _ _ _), .shufflePhase .key =>
      { s with groups := s.groups ++ s.temp.toList, temp := none }
  | _, _ => s

def delete (s : Life n InputPair K V OutputPair) (object : JobObject n) (point : FreePoint) :
    Life n InputPair K V OutputPair :=
  { s with heap := s.heap.erase object, point := .freeing point }

/-- The object that `free_resources` deletes next, and where it goes on. -/
def deletion (s : Life n InputPair K V OutputPair) : FreePoint → Option (JobObject n) × FreePoint
  | .intermediateVec i =>
      if h : i < n then (some (.intermediateVec ⟨i, h⟩), .context i) else (none, .threadContexts)
  | .context i =>
      if h : i < n then (some (.context ⟨i, h⟩), .intermediateVec (i + 1))
      else (none, .threadContexts)
  | .threadContexts => (some .threadContexts, .beforeShuffle)
  | .beforeShuffle => (some .beforeShuffle, .group 0)
  | .group k =>
      match s.groups[k]? with
      | some group => (some (.group group), .group (k + 1))
      | none => (none, .afterShuffle)
  | .afterShuffle => (some .afterShuffle, .state)
  | .state => (some .state, .barrier)
  | .barrier => (some .barrier, .allThreads)
  | .allThreads => (some .allThreads, .job)
  | .job => (some .job, .freed)
  | .freed => (none, .freed)

inductive Step (client : Client InputPair K V OutputPair) (inputVec : List InputPair) :
    Life n InputPair K V OutputPair → LifeEvent n → Life n InputPair K V OutputPair → Prop where
  | worker {s : Life n InputPair K V OutputPair} {event : JobEvent n}
      {job : Job n InputPair K V OutputPair} :
      event.thread < s.started → Job.Step client inputVec s.job event job →
      Step client inputVec s (.worker event)
        (moved { s with job := job } (s.job.workers event.thread).point
          (job.workers event.thread).point)
  | newContext {s : Life n InputPair K V OutputPair} {i : Fin n} :
      s.point = .starting i →
      Step client inputVec s .main
        { s with heap := .intermediateVec i :: .context i :: s.heap, point := .creating i }
  | pthreadCreate {s : Life n InputPair K V OutputPair} {i : Fin n} :
      s.point = .creating i →
      Step client inputVec s .main { s with started := i + 1, point := .starting (i + 1) }
  | created {s : Life n InputPair K V OutputPair} :
      s.point = .starting n → Step client inputVec s .main { s with point := .idle }
  | wait {s : Life n InputPair K V OutputPair} :
      s.point = .idle →
      Step client inputVec s .waitForJob
        { s with point := if s.threadJoin then .idle else .joining false 0, threadJoin := true }
  | close {s : Life n InputPair K V OutputPair} :
      s.point = .idle →
      Step client inputVec s .closeJobHandle
        { s with
          point := if s.threadJoin then .freeing (.intermediateVec 0) else .joining true 0
          threadJoin := true }
  | join {s : Life n InputPair K V OutputPair} {closing : Bool} {i : Fin n} :
      s.point = .joining closing i → (s.job.workers i).point = .reducePhase .out →
      Step client inputVec s .main { s with point := .joining closing (i + 1) }
  | joined {s : Life n InputPair K V OutputPair} {closing : Bool} :
      s.point = .joining closing n →
      Step client inputVec s .main
        { s with point := if closing then .freeing (.intermediateVec 0) else .idle }
  | delete {s : Life n InputPair K V OutputPair} {point point' : FreePoint}
      {object : JobObject n} :
      s.point = .freeing point → s.deletion point = (some object, point') →
      Step client inputVec s .main (s.delete object point')
  | goOn {s : Life n InputPair K V OutputPair} {point point' : FreePoint} :
      s.point = .freeing point → point ≠ .freed → s.deletion point = (none, point') →
      Step client inputVec s .main { s with point := .freeing point' }

/-! ### What is on the heap -/

/-- The contexts of the workers of a list. -/
def contextsOf (workers : List (Fin n)) : List (JobObject n) :=
  workers.flatMap fun i => [.intermediateVec i, .context i]

/-- The objects behind the groups. -/
def lastObjects : List (JobObject n) := [.afterShuffle, .state, .barrier, .allThreads, .job]

/-- The objects behind the contexts. -/
def sharedObjects (groups : List Nat) : List (JobObject n) :=
  .threadContexts :: .beforeShuffle :: (groups.map .group ++ lastObjects)

/-- What `free_resources` has still to delete. -/
def remaining (s : Life n InputPair K V OutputPair) : FreePoint → List (JobObject n)
  | .intermediateVec i => contextsOf ((List.finRange n).drop i) ++ sharedObjects s.groups
  | .context i => (contextsOf ((List.finRange n).drop i)).drop 1 ++ sharedObjects s.groups
  | .threadContexts => sharedObjects s.groups
  | .beforeShuffle => (sharedObjects s.groups).drop 1
  | .group k => (s.groups.drop k).map .group ++ lastObjects
  | .afterShuffle => lastObjects
  | .state => lastObjects.drop 1
  | .barrier => lastObjects.drop 2
  | .allThreads => lastObjects.drop 3
  | .job => lastObjects.drop 4
  | .freed => []

theorem contextsOf_drop {i : Nat} (hi : i < n) :
    contextsOf ((List.finRange n).drop i) =
      .intermediateVec ⟨i, hi⟩ :: .context ⟨i, hi⟩ ::
        contextsOf ((List.finRange n).drop (i + 1)) := by
  have hlength : i < (List.finRange n).length := by rwa [List.length_finRange]
  rw [List.drop_eq_getElem_cons hlength, List.getElem_finRange]
  rfl

theorem contextsOf_drop_of_le {i : Nat} (hi : n ≤ i) :
    contextsOf ((List.finRange n).drop i) = [] := by
  rw [List.drop_eq_nil_of_le (by rwa [List.length_finRange])]
  rfl

/-- A deletion takes the first of what remains. -/
theorem remaining_eq (s : Life n InputPair K V OutputPair) (point : FreePoint) :
    s.remaining point = (s.deletion point).1.toList ++ s.remaining (s.deletion point).2 := by
  cases point with
  | intermediateVec i =>
      by_cases hi : i < n
      · rw [deletion, dif_pos hi, remaining, remaining, contextsOf_drop hi]
        rfl
      · rw [deletion, dif_neg hi, remaining, contextsOf_drop_of_le (not_lt.mp hi)]
        rfl
  | context i =>
      by_cases hi : i < n
      · rw [deletion, dif_pos hi, remaining, remaining, contextsOf_drop hi]
        rfl
      · rw [deletion, dif_neg hi, remaining, contextsOf_drop_of_le (not_lt.mp hi)]
        rfl
  | group k =>
      cases hgroup : s.groups[k]? with
      | none =>
          have hk := List.getElem?_eq_none_iff.mp hgroup
          rw [deletion, hgroup, remaining, List.drop_eq_nil_of_le hk]
          rfl
      | some group =>
          obtain ⟨hk, hget⟩ := List.getElem?_eq_some_iff.mp hgroup
          rw [deletion, hgroup, remaining, remaining, List.drop_eq_getElem_cons hk, hget]
          rfl
  | _ => rfl

@[simp] theorem mem_contextsOf {workers : List (Fin n)} {object : JobObject n} :
    object ∈ contextsOf workers ↔
      ∃ i ∈ workers, object = .intermediateVec i ∨ object = .context i := by
  simp [contextsOf]

@[simp] theorem mem_sharedObjects {groups : List Nat} {object : JobObject n} :
    object ∈ sharedObjects groups ↔
      object = .threadContexts ∨ object = .beforeShuffle ∨ (∃ k ∈ groups, object = .group k) ∨
        object ∈ lastObjects := by
  simp [sharedObjects, eq_comm]

theorem mem_take_finRange {k : Nat} {i : Fin n} : i ∈ (List.finRange n).take k ↔ i.val < k := by
  rw [List.mem_take_iff_getElem]
  constructor
  · rintro ⟨j, hj, rfl⟩
    rw [List.getElem_finRange]
    exact (lt_min_iff.mp hj).1
  · intro hi
    exact ⟨i, lt_min hi (by rw [List.length_finRange]; exact i.isLt), by simp⟩

theorem contextsOf_take_succ (i : Fin n) :
    contextsOf ((List.finRange n).take (i + 1)) =
      contextsOf ((List.finRange n).take i) ++ [.intermediateVec i, .context i] := by
  have hlength : i.val < (List.finRange n).length := by rw [List.length_finRange]; exact i.isLt
  rw [List.take_succ_eq_append_getElem hlength, List.getElem_finRange, contextsOf,
    List.flatMap_append]
  rfl

/-- A new vector comes behind the groups. -/
theorem sharedObjects_concat (groups : List Nat) (k : Nat) :
    (sharedObjects (n := n) (groups ++ [k])).Perm (.group k :: sharedObjects groups) := by
  have hgroups : ((groups ++ [k]).map JobObject.group ++ lastObjects (n := n)).Perm
      (JobObject.group k :: (groups.map JobObject.group ++ lastObjects)) := by
    rw [List.map_append, List.append_assoc]
    exact List.perm_middle
  exact ((hgroups.cons _).trans (.swap _ _ _)).cons _ |>.trans (.swap _ _ _)

end Life

/-! ### The rounds of the shuffle -/

/-- Worker 0 has allocated a vector that it has not pushed yet. -/
def Point.scanning {K V : Type} : Point K V → Bool
  | .shufflePhase (.scan _ _ _) => true
  | _ => false

theorem Point.leading_of_scanning {K V : Type} {point : Point K V}
    (hpoint : point.scanning = true) : point.leading = true := by
  cases point with
  | shufflePhase _ => rfl
  | _ => cases hpoint

theorem Point.scanning_behindBarrier {K V : Type} {point : Point K V}
    (hpoint : point.atBarrier = true) (id : Nat) :
    (point.behindBarrier id).scanning = point.scanning := by
  cases point with
  | firstBarrier => by_cases hid : id = 0 <;> simp [behindBarrier, hid, scanning]
  | secondBarrier => rfl
  | _ => cases hpoint

theorem Point.leading_behindBarrier {K V : Type} {point : Point K V}
    (hpoint : point.atBarrier = true) {id : Nat}
    (hleading : (point.behindBarrier id).leading = true) : id = 0 := by
  cases point with
  | firstBarrier =>
      by_contra hid
      rw [behindBarrier, if_neg hid] at hleading
      cases hleading
  | secondBarrier => cases hleading
  | _ => cases hpoint

/-- What a step does for the vectors of the groups, with the number of those that it pushes. -/
inductive Round {K V : Type} : Point K V → Point K V → Nat → Prop where
  | aside {before after : Point K V} : after.scanning = before.scanning → Round before after 0
  | start {key : K} {temp : IntermediateVec K V} {index : Nat} :
      Round (.shufflePhase .key) (.shufflePhase (.scan key temp index)) 0
  | push {key : K} {temp : IntermediateVec K V} {index : Nat} :
      Round (.shufflePhase (.scan key temp index)) (.shufflePhase .key) 1

namespace Job

variable {n : Nat} {InputPair K V OutputPair : Type} {client : Client InputPair K V OutputPair}
  {inputVec : List InputPair} {s s' : Job n InputPair K V OutputPair} {event : JobEvent n}

/-- The other workers stay where they are. -/
theorem step_others (hstep : Step client inputVec s event s') {i : Fin n}
    (hne : i ≠ event.thread) : s'.workers i = s.workers i := by
  cases event with
  | own j => exact LockedJob.own_worker hstep hne
  | barrier event =>
      obtain ⟨-, -, hworkers⟩ := LockedJob.barrier_shared hstep
      exact hworkers i hne

theorem round_shuffle {i : Fin n} {point : ShufflePoint K V} {amount : Nat} {shuffle : Shuffle K V}
    (hi : (s.workers i).point = .shufflePhase point)
    (hshuffle : Shuffle.Step client.less ⟨s.beforeShuffle, s.afterShuffle, point⟩ amount shuffle) :
    ∃ added, Round (s.workers i).point (.shufflePhase shuffle.point) added ∧
      shuffle.afterShuffle.length = s.afterShuffle.length + added := by
  rw [hi]
  cases Shuffle.move_of_step hshuffle with
  | finish _ => exact ⟨0, .aside rfl, rfl⟩
  | start _ => exact ⟨0, .start, rfl⟩
  | push _ => exact ⟨1, .push, List.length_append⟩
  | skip _ _ => exact ⟨0, .aside rfl, rfl⟩
  | take _ _ => exact ⟨0, .aside rfl, rfl⟩

theorem round_step (hstep : Step client inputVec s event s') :
    ∃ added, Round (s.workers event.thread).point (s'.workers event.thread).point added ∧
      s'.afterShuffle.length = s.afterShuffle.length + added := by
  cases hstep with
  | @shuffle i _ _ shuffle hi hshuffle =>
      have hpoint := congrArg Worker.point
        (setWorker_self s i { s.workers i with point := .shufflePhase shuffle.point })
      obtain ⟨added, hround, hlength⟩ := round_shuffle hi hshuffle
      exact ⟨added, hpoint ▸ hround, hlength⟩
  | barrier _ _ _ => exact ⟨0, .aside rfl, rfl⟩
  | @barrierReturn i _ hi _ =>
      refine ⟨0, .aside ?_, rfl⟩
      change ((s.goTo i _).workers i).point.scanning = _
      rw [goTo, setWorker_self]
      exact Point.scanning_behindBarrier hi i
  | @resetNext i stage hi =>
      refine ⟨0, .aside ?_, rfl⟩
      change ((s.goTo i _).workers i).point.scanning = (s.workers i).point.scanning
      rw [goTo, setWorker_self, hi]
      cases stage <;> rfl
  | @emit3 i index pair rest hi _ =>
      refine ⟨0, .aside ?_, rfl⟩
      change ((s.setWorker i _).workers i).point.scanning = _
      rw [setWorker_self]
      rfl
  | @mapLoad i hi | @mapNext i hi | @map i _ _ _ hi _ _ | @mapCount i _ hi | @sort i _ hi _
  | @pushBack i hi | @countElements i hi | @resetState i _ _ hi | @countShuffled i hi
  | @reduceLoad i hi | @reduceNext i hi | @reduce i _ _ _ hi _ _ | @reduceCount i _ _ hi _ _ =>
      refine ⟨0, .aside ?_, rfl⟩
      change ((s.setWorker i _).workers i).point.scanning = (s.workers i).point.scanning
      rw [setWorker_self, hi]
      rfl

/-- Only worker 0 takes the lead, whenever the barrier lets it through. -/
def Led (s : Job n InputPair K V OutputPair) : Prop :=
  ∀ i, (s.workers i).point.leading = true → i.val = 0

theorem Led.step (h : s.Led) (hstep : Step client inputVec s event s') : s'.Led := by
  intro i hleading
  by_cases hne : i = event.thread
  · subst hne
    cases event with
    | own i =>
        obtain ⟨worker, hown⟩ := own_step hstep
        rw [hown.workers, JobEvent.thread, Function.update_self] at hleading
        exact h i (hown.leading hleading)
    | barrier event =>
        cases hstep with
        | barrier _ _ _ => exact h _ hleading
        | @barrierReturn i _ hi _ =>
            change ((s.goTo i _).workers i).point.leading = true at hleading
            rw [goTo, setWorker_self] at hleading
            exact Point.leading_behindBarrier hi hleading
  · rw [step_others hstep hne] at hleading
    exact h i hleading

/-- A worker that scans is the only one. -/
theorem Led.scanning_unique (h : s.Led) {i j : Fin n}
    (hi : (s.workers i).point.scanning = true) (hj : (s.workers j).point.scanning = true) :
    i = j := by
  have hi0 := h i (Point.leading_of_scanning hi)
  have hj0 := h j (Point.leading_of_scanning hj)
  exact Fin.ext (hi0.trans hj0.symm)

end Job

/-! ### The heap in every run -/

namespace Life

variable {n : Nat} {InputPair K V OutputPair : Type} {client : Client InputPair K V OutputPair}
  {inputVec : List InputPair} {outputVec : List OutputPair}
  {s s' : Life n InputPair K V OutputPair}

theorem moved_of_aside {before after : Point K V} (haside : after.scanning = before.scanning) :
    s.moved before after = s := by
  unfold moved
  split
  · cases haside
  · cases haside
  · rfl

/-- A round of the shuffle leaves the job and the main thread alone. -/
theorem moved_frame (s : Life n InputPair K V OutputPair) (before after : Point K V) :
    (s.moved before after).job = s.job ∧ (s.moved before after).point = s.point ∧
      (s.moved before after).started = s.started := by
  unfold moved
  split <;> exact ⟨rfl, rfl, rfl⟩

/-- All vectors of groups, also the one that is not pushed yet. -/
def allGroups (s : Life n InputPair K V OutputPair) : List Nat := s.groups ++ s.temp.toList

/-- How many workers have a context while `create_job` runs. -/
def contexts (n : Nat) : LifePoint → Nat
  | .starting i => i
  | .creating i => i + 1
  | _ => n

/-- What `free_resources` has not deleted of what was allocated. -/
def live (s : Life n InputPair K V OutputPair) : List (JobObject n) :=
  match s.point with
  | .freeing point => s.remaining point
  | point => contextsOf ((List.finRange n).take (contexts n point)) ++ sharedObjects s.allGroups

/-- What the main thread knows about the workers. -/
def Known (s : Life n InputPair K V OutputPair) : LifePoint → Prop
  | .starting i => s.started = i ∧ s.threadJoin = false
  | .creating i => s.started = i ∧ s.threadJoin = false
  | .idle => s.threadJoin = true → s.job.Done
  | .joining _ i => ∀ j : Fin n, j.val < i → (s.job.workers j).point = .reducePhase .out
  | .freeing _ => s.job.Done

structure Inv (s : Life n InputPair K V OutputPair) : Prop where
  led : s.job.Led
  length : s.groups.length = s.job.afterShuffle.length
  groups : s.allGroups = List.range s.allocated
  temp : s.temp.isSome = true ↔ ∃ i, (s.job.workers i).point.scanning = true
  known : s.Known s.point
  heap : s.heap.Perm s.live
  nodup : s.heap.Nodup

/-- Nobody scans any more. -/
theorem Inv.temp_of_done (h : s.Inv) (hdone : s.job.Done) : s.temp = none := by
  rw [← Option.not_isSome_iff_eq_none, h.temp]
  rintro ⟨i, hi⟩
  rw [hdone i] at hi
  cases hi

/-- What is known stays known when the workers move. -/
theorem Known.worker {place : LifePoint} (h : s.Known place) {event : JobEvent n}
    (hstep : Job.Step client inputVec s.job event s'.job) (hstarted : s'.started = s.started)
    (hjoin : s'.threadJoin = s.threadJoin) : s'.Known place := by
  cases place with
  | starting i => exact ⟨hstarted.trans h.1, hjoin.trans h.2⟩
  | creating i => exact ⟨hstarted.trans h.1, hjoin.trans h.2⟩
  | idle => exact fun hset i => Job.returned_step hstep (h (hjoin.symm.trans hset) i)
  | joining closing k => exact fun j hj => Job.returned_step hstep (h j hj)
  | freeing point => exact fun i => Job.returned_step hstep (h i)

theorem inv_create : (create n K V inputVec outputVec).Inv where
  led _ hleading := by cases hleading
  length := rfl
  groups := rfl
  temp := by
    constructor
    · intro hsome
      cases hsome
    · rintro ⟨i, hi⟩
      cases hi
  known := ⟨rfl, rfl⟩
  heap := .refl _
  nodup := by simp [create]

theorem live_of_not_freeing (hpoint : ∀ point, s.point ≠ .freeing point) :
    s.live =
      contextsOf ((List.finRange n).take (contexts n s.point)) ++ sharedObjects s.allGroups := by
  rw [live]
  split
  · exact absurd ‹_› (hpoint _)
  · rfl

theorem perm_live (hpoint : ∀ point, s.point ≠ .freeing point)
    (hheap : s.heap.Perm
      (contextsOf ((List.finRange n).take (contexts n s.point)) ++ sharedObjects s.allGroups)) :
    s.heap.Perm s.live :=
  (live_of_not_freeing hpoint).symm ▸ hheap

/-- The workers move while nothing is deleted. -/
theorem Inv.not_freeing (h : s.Inv) {i : Fin n} {place : Point K V}
    (hi : (s.job.workers i).point = place) (hplace : place ≠ .reducePhase .out)
    (point : FreePoint) : s.point ≠ .freeing point := by
  intro hpoint
  have hknown := h.known
  rw [hpoint] at hknown
  exact hplace (hi.symm.trans (hknown i))

/-- The vector of a round is new. -/
theorem Inv.group_not_mem (h : s.Inv) (hpoint : ∀ point, s.point ≠ .freeing point) :
    .group s.allocated ∉ s.heap := by
  rw [h.heap.mem_iff, live_of_not_freeing hpoint, h.groups]
  simp [lastObjects]

section Worker

variable {event : JobEvent n} {job : Job n InputPair K V OutputPair} (h : s.Inv)
  (hstep : Job.Step client inputVec s.job event job)
include h hstep

theorem Inv.aside
    (haside : (job.workers event.thread).point.scanning =
      (s.job.workers event.thread).point.scanning)
    (hlength : job.afterShuffle.length = s.job.afterShuffle.length) :
    Inv { s with job := job } where
  led := h.led.step hstep
  length := h.length.trans hlength.symm
  groups := h.groups
  temp := by
    have hscanning : ∀ i, (job.workers i).point.scanning = (s.job.workers i).point.scanning := by
      intro i
      by_cases hne : i = event.thread
      · rw [hne, haside]
      · rw [Job.step_others hstep hne]
    rw [h.temp]
    exact exists_congr fun i => by rw [hscanning i]
  known := Known.worker h.known hstep rfl rfl
  heap := h.heap
  nodup := h.nodup

/-- A round begins with a vector of its own. -/
theorem Inv.start {key : K} {temp : IntermediateVec K V} {index : Nat}
    (hbefore : (s.job.workers event.thread).point = .shufflePhase .key)
    (hafter : (job.workers event.thread).point = .shufflePhase (.scan key temp index))
    (hlength : job.afterShuffle.length = s.job.afterShuffle.length) :
    Inv { s with
      job := job
      heap := .group s.allocated :: s.heap
      temp := some s.allocated
      allocated := s.allocated + 1 } := by
  have hpoint := h.not_freeing hbefore nofun
  have htemp : s.temp = none := by
    rw [← Option.not_isSome_iff_eq_none, h.temp]
    rintro ⟨i, hi⟩
    have hthread := h.led event.thread (by rw [hbefore]; rfl)
    have heq : i = event.thread :=
      Fin.ext ((h.led i (Point.leading_of_scanning hi)).trans hthread.symm)
    rw [heq, hbefore] at hi
    cases hi
  have hgroups : s.allGroups = s.groups := by rw [allGroups, htemp]; exact List.append_nil _
  constructor
  case led => exact h.led.step hstep
  case length => exact h.length.trans hlength.symm
  case groups =>
    calc s.groups ++ [s.allocated]
      _ = List.range s.allocated ++ [s.allocated] := by rw [← hgroups, h.groups]
      _ = List.range (s.allocated + 1) := List.range_succ.symm
  case temp => exact ⟨fun _ => ⟨event.thread, by rw [hafter]; rfl⟩, fun _ => rfl⟩
  case known => exact Known.worker h.known hstep rfl rfl
  case heap =>
    have hheap := h.heap
    rw [live_of_not_freeing hpoint, hgroups] at hheap
    have hnew := sharedObjects_concat (n := n) s.groups s.allocated
    refine perm_live hpoint ?_
    exact (hheap.cons _).trans (List.perm_middle.symm.trans (hnew.symm.append_left _))
  case nodup => exact List.nodup_cons.mpr ⟨h.group_not_mem hpoint, h.nodup⟩

/-- The round ends, and its vector comes behind the others. -/
theorem Inv.push {key : K} {temp : IntermediateVec K V} {index : Nat}
    (hbefore : (s.job.workers event.thread).point = .shufflePhase (.scan key temp index))
    (hafter : (job.workers event.thread).point = .shufflePhase .key)
    (hlength : job.afterShuffle.length = s.job.afterShuffle.length + 1) :
    Inv { s with job := job, groups := s.groups ++ s.temp.toList, temp := none } := by
  have hpoint := h.not_freeing hbefore nofun
  have hscanning : (s.job.workers event.thread).point.scanning = true := by rw [hbefore]; rfl
  have hsome : s.temp.isSome = true := h.temp.mpr ⟨event.thread, hscanning⟩
  have hsame : (s.groups ++ s.temp.toList) ++ [] = s.allGroups := List.append_nil _
  constructor
  case led => exact h.led.step hstep
  case length =>
    obtain ⟨group, hgroup⟩ := Option.isSome_iff_exists.mp hsome
    change (s.groups ++ s.temp.toList).length = job.afterShuffle.length
    rw [hgroup, List.length_append, h.length, hlength]
    rfl
  case groups => exact hsame.trans h.groups
  case temp =>
    constructor
    · intro hnone
      cases hnone
    · rintro ⟨i, hi⟩
      by_cases hne : i = event.thread
      · rw [hne, hafter] at hi
        cases hi
      · rw [Job.step_others hstep hne] at hi
        exact absurd (h.led.scanning_unique hi hscanning) hne
  case known => exact Known.worker h.known hstep rfl rfl
  case heap =>
    have hheap := h.heap
    rw [live_of_not_freeing hpoint, ← hsame] at hheap
    refine perm_live hpoint ?_
    exact hheap
  case nodup => exact h.nodup

theorem Inv.worker :
    (moved { s with job := job } (s.job.workers event.thread).point
      (job.workers event.thread).point).Inv := by
  obtain ⟨added, hround, hlength⟩ := Job.round_step hstep
  generalize hbefore : (s.job.workers event.thread).point = before at hround ⊢
  generalize hafter : (job.workers event.thread).point = after at hround ⊢
  cases hround with
  | aside haside =>
      rw [moved_of_aside haside]
      exact h.aside hstep (by rw [hbefore, hafter, haside]) hlength
  | start => exact h.start hstep hbefore hafter hlength
  | push => exact h.push hstep hbefore hafter hlength

end Worker

/-- The main thread goes on without the heap. -/
theorem Inv.goOn (h : s.Inv) (hjob : s'.job = s.job) (hheap : s'.heap = s.heap)
    (hgroups : s'.groups = s.groups) (htemp : s'.temp = s.temp)
    (hallocated : s'.allocated = s.allocated) (hknown : s'.Known s'.point)
    (hlive : s'.live = s.live) : s'.Inv where
  led := hjob ▸ h.led
  length := by rw [hgroups, hjob, h.length]
  groups := by rw [allGroups, hgroups, htemp, hallocated]; exact h.groups
  temp := by rw [htemp, hjob, h.temp]
  known := hknown
  heap := by rw [hheap, hlive]; exact h.heap
  nodup := hheap ▸ h.nodup

theorem Inv.newContext (h : s.Inv) {i : Fin n} (hpoint : s.point = .starting i) :
    Inv { s with heap := .intermediateVec i :: .context i :: s.heap, point := .creating i } := by
  have hheap := h.heap
  have hknown := h.known
  rw [hpoint] at hknown
  rw [live_of_not_freeing (by rw [hpoint]; nofun), hpoint] at hheap
  constructor
  case led => exact h.led
  case length => exact h.length
  case groups => exact h.groups
  case temp => exact h.temp
  case known => exact hknown
  case heap =>
    refine perm_live nofun ?_
    change List.Perm _ (contextsOf ((List.finRange n).take (i + 1)) ++ sharedObjects s.allGroups)
    rw [contextsOf_take_succ, List.append_assoc]
    exact ((hheap.cons _).cons _).trans (List.perm_append_comm_assoc [_, _] _ _)
  case nodup =>
    have hold : ∀ object, object = .intermediateVec i ∨ object = .context i → object ∉ s.heap := by
      intro object hobject
      rw [hheap.mem_iff, List.mem_append, mem_contextsOf, mem_sharedObjects]
      rintro (⟨j, hj, hsame⟩ | hshared)
      · have hlt := mem_take_finRange.mp hj
        have hne : i ≠ j := fun heq => absurd (heq ▸ hlt) (lt_irrefl _)
        rcases hobject with rfl | rfl <;> simp [hne] at hsame
      · rcases hobject with rfl | rfl <;> simp [lastObjects] at hshared
    refine List.nodup_cons.mpr ⟨?_, List.nodup_cons.mpr ⟨hold _ (Or.inr rfl), h.nodup⟩⟩
    rw [List.mem_cons, not_or]
    exact ⟨nofun, hold _ (Or.inl rfl)⟩

/-- The deletion begins when all workers have returned. -/
theorem Inv.free (h : s.Inv) (hpoint : ∀ point, s.point ≠ .freeing point)
    (hcontexts : contexts n s.point = n) (hdone : s.job.Done) (threadJoin : Bool) :
    Inv { s with point := .freeing (.intermediateVec 0), threadJoin := threadJoin } := by
  refine h.goOn rfl rfl rfl rfl rfl hdone ?_
  rw [live_of_not_freeing hpoint, hcontexts, allGroups, h.temp_of_done hdone]
  rw [List.take_of_length_le (List.length_finRange).le]
  exact congrArg (fun groups => contextsOf (List.finRange n) ++ sharedObjects groups)
    (List.append_nil _).symm

theorem Inv.delete (h : s.Inv) {point point' : FreePoint} {object : JobObject n}
    (hpoint : s.point = .freeing point) (hdeletion : s.deletion point = (some object, point')) :
    (s.delete object point').Inv := by
  have hheap := h.heap
  have hknown := h.known
  rw [hpoint] at hknown
  rw [live, hpoint] at hheap
  change s.heap.Perm (s.remaining point) at hheap
  rw [remaining_eq, hdeletion] at hheap
  constructor
  case led => exact h.led
  case length => exact h.length
  case groups => exact h.groups
  case temp => exact h.temp
  case known => exact hknown
  case heap =>
    have herase := hheap.erase object
    rw [Option.toList_some, List.singleton_append, List.erase_cons_head] at herase
    exact herase
  case nodup => exact h.nodup.erase object

theorem Inv.step (h : s.Inv) {event : LifeEvent n} (hstep : Step client inputVec s event s') :
    s'.Inv := by
  have hknown := h.known
  cases hstep with
  | worker _ hstep => exact h.worker hstep
  | newContext hpoint => exact h.newContext hpoint
  | pthreadCreate hpoint =>
      rw [hpoint] at hknown
      refine h.goOn rfl rfl rfl rfl rfl ⟨rfl, hknown.2⟩ ?_
      rw [live, live, hpoint]
      rfl
  | created hpoint =>
      rw [hpoint] at hknown
      refine h.goOn rfl rfl rfl rfl rfl ?_ ?_
      · intro hset
        rw [hknown.2] at hset
        cases hset
      · rw [live, live, hpoint]
        rfl
  | wait hpoint =>
      rw [hpoint] at hknown
      by_cases hset : s.threadJoin = true
      · refine h.goOn rfl rfl rfl rfl rfl ?_ ?_
        · simp only [if_pos hset]
          exact fun _ => hknown hset
        · simp only [live, if_pos hset, hpoint]
          rfl
      · refine h.goOn rfl rfl rfl rfl rfl ?_ ?_
        · simp only [if_neg hset]
          exact fun _ hj => absurd hj (Nat.not_lt_zero _)
        · simp only [live, if_neg hset, hpoint]
          rfl
  | close hpoint =>
      rw [hpoint] at hknown
      by_cases hset : s.threadJoin = true
      · simp only [if_pos hset]
        exact h.free (by rw [hpoint]; nofun) (by rw [hpoint]; rfl) (hknown hset) true
      · refine h.goOn rfl rfl rfl rfl rfl ?_ ?_
        · simp only [if_neg hset]
          exact fun _ hj => absurd hj (Nat.not_lt_zero _)
        · simp only [live, if_neg hset, hpoint]
          rfl
  | @join closing i hpoint hreturned =>
      rw [hpoint] at hknown
      refine h.goOn rfl rfl rfl rfl rfl ?_ ?_
      · intro j hj
        rcases Nat.lt_succ_iff_lt_or_eq.mp hj with hlt | heq
        · exact hknown j hlt
        · exact (Fin.ext heq : j = i) ▸ hreturned
      · rw [live, live, hpoint]
        rfl
  | @joined closing hpoint =>
      rw [hpoint] at hknown
      have hdone : s.job.Done := fun i => hknown i i.isLt
      cases closing with
      | true => exact h.free (by rw [hpoint]; nofun) (by rw [hpoint]; rfl) hdone s.threadJoin
      | false =>
          refine h.goOn rfl rfl rfl rfl rfl (fun _ => hdone) ?_
          rw [live, live, hpoint]
          rfl
  | delete hpoint hdeletion => exact h.delete hpoint hdeletion
  | @goOn point point' hpoint _ hdeletion =>
      rw [hpoint] at hknown
      refine h.goOn rfl rfl rfl rfl rfl hknown ?_
      rw [live, live, hpoint]
      change s.remaining point' = s.remaining point
      rw [remaining_eq s point, hdeletion]
      rfl

theorem run_inv {events : List (LifeEvent n)}
    (hrun : Run (Step client inputVec) (create n K V inputVec outputVec) events s) : s.Inv :=
  hrun.invariant inv_create fun _ _ _ h hstep => h.step hstep

/-- The workers run while the main thread stays where it is. -/
theorem run_workers {events : List (JobEvent n)} {job : Job n InputPair K V OutputPair}
    (hstarted : n ≤ s.started) (hrun : Run (Job.Step client inputVec) s.job events job) :
    ∃ s', Run (Step client inputVec) s (events.map .worker) s' ∧ s'.job = job ∧
      s'.point = s.point ∧ s'.started = s.started := by
  induction hrun with
  | start => exact ⟨s, .start, rfl, rfl, rfl⟩
  | @next events middle job event _ hstep ih =>
      obtain ⟨s', hrun', rfl, hpoint, hstarted'⟩ := ih
      have hthread : event.thread < s'.started :=
        hstarted' ▸ lt_of_lt_of_le event.thread.isLt hstarted
      have hmoved := moved_frame { s' with job := job } (s'.job.workers event.thread).point
        (job.workers event.thread).point
      refine ⟨_, List.map_append ▸ hrun'.next (.worker hthread hstep), hmoved.1, ?_, ?_⟩
      · exact hmoved.2.1.trans hpoint
      · exact hmoved.2.2.trans hstarted'

/-! ### `free_resources` comes to its end -/

/-- Every step deletes an object or ends a loop. -/
theorem deletion_lt (s : Life n InputPair K V OutputPair) {point : FreePoint}
    (hpoint : point ≠ .freed) :
    (s.remaining (s.deletion point).2).length + (s.deletion point).2.loops <
      (s.remaining point).length + point.loops := by
  rw [remaining_eq s point, List.length_append]
  cases point with
  | intermediateVec i =>
      by_cases hi : i < n <;> simp [deletion, hi, FreePoint.loops]
  | context i =>
      by_cases hi : i < n <;> simp [deletion, hi, FreePoint.loops]
  | group k =>
      cases hgroup : s.groups[k]? <;> simp [deletion, hgroup, FreePoint.loops]
  | freed => exact absurd rfl hpoint
  | _ => simp [deletion, FreePoint.loops]

theorem exists_freed (client : Client InputPair K V OutputPair) (inputVec : List InputPair)
    (s : Life n InputPair K V OutputPair) (point : FreePoint) (hpoint : s.point = .freeing point) :
    ∃ events last, Run (Step client inputVec) s events last ∧ last.point = .freeing .freed := by
  induction hmeasure : (s.remaining point).length + point.loops using Nat.strong_induction_on
    generalizing s point with
  | _ measure ih =>
      by_cases hfreed : point = .freed
      · exact ⟨[], s, .start, hfreed ▸ hpoint⟩
      · have hlt := hmeasure ▸ s.deletion_lt hfreed
        obtain ⟨s', hstep, hpoint', hgroups⟩ : ∃ s', Step client inputVec s .main s' ∧
            s'.point = .freeing (s.deletion point).2 ∧ s'.groups = s.groups := by
          cases hdeletion : s.deletion point with
          | mk object point' =>
              cases object with
              | none => exact ⟨_, .goOn hpoint hfreed hdeletion, rfl, rfl⟩
              | some object => exact ⟨_, .delete hpoint hdeletion, rfl, rfl⟩
        have hremaining : s'.remaining = s.remaining := by
          funext place
          cases place <;> simp only [remaining, hgroups]
        obtain ⟨events, last, hrun, hlast⟩ := ih _ hlt s' _ hpoint' (by rw [hremaining])
        exact ⟨_, last, (Run.start.next hstep).append hrun, hlast⟩

/-! ### Every object -/

/-- What worker `i` can reach in `thread_flow`. -/
def reached (s : Life n InputPair K V OutputPair) (i : Fin n) : List (JobObject n) :=
  [.job, .barrier, .beforeShuffle, .afterShuffle, .context i, .intermediateVec i] ++
    s.allGroups.map .group

/-- What `free_resources` reads at a place, besides the object that it deletes. -/
def read : FreePoint → List (JobObject n)
  | .intermediateVec i =>
      if h : i < n then [.job, .threadContexts, .context ⟨i, h⟩] else [.job]
  | .context i => if i < n then [.job, .threadContexts] else [.job]
  | .beforeShuffle => [.job, .beforeShuffle]
  | .group _ => [.job, .afterShuffle]
  | .freed => []
  | _ => [.job]

/-- A worker that was created has its context, and the shared objects are there. -/
theorem Inv.reached_mem (h : s.Inv) {i : Fin n} (hstarted : i.val < s.started)
    (hi : (s.job.workers i).point ≠ .reducePhase .out) {object : JobObject n}
    (hobject : object ∈ s.reached i) : object ∈ s.heap := by
  have hpoint := h.not_freeing rfl hi
  have hknown := h.known
  have hcontext : i.val < contexts n s.point := by
    cases hplace : s.point with
    | starting k =>
        rw [hplace] at hknown
        exact hknown.1 ▸ hstarted
    | creating k =>
        rw [hplace] at hknown
        exact Nat.lt_succ_of_lt (hknown.1 ▸ hstarted)
    | idle | joining _ _ | freeing _ => exact i.isLt
  rw [h.heap.mem_iff, live_of_not_freeing hpoint, List.mem_append, mem_contextsOf,
    mem_sharedObjects]
  simp only [reached, List.mem_append, List.mem_cons, List.mem_map, List.not_mem_nil, or_false]
    at hobject
  have hworker := mem_take_finRange.mpr hcontext
  obtain (rfl | rfl | rfl | rfl | rfl | rfl) | ⟨k, hk, rfl⟩ := hobject
  · exact Or.inr (Or.inr (Or.inr (Or.inr (by simp [lastObjects]))))
  · exact Or.inr (Or.inr (Or.inr (Or.inr (by simp [lastObjects]))))
  · exact Or.inr (Or.inr (Or.inl rfl))
  · exact Or.inr (Or.inr (Or.inr (Or.inr (by simp [lastObjects]))))
  · exact Or.inl ⟨i, hworker, Or.inr rfl⟩
  · exact Or.inl ⟨i, hworker, Or.inl rfl⟩
  · exact Or.inr (Or.inr (Or.inr (Or.inl ⟨k, hk, rfl⟩)))

theorem read_subset (s : Life n InputPair K V OutputPair) (point : FreePoint) :
    read point ⊆ s.remaining point := by
  cases point with
  | intermediateVec i =>
      by_cases hi : i < n
      · simp [read, remaining, contextsOf_drop hi, hi, lastObjects]
      · simp [read, remaining, hi, lastObjects]
  | context i =>
      by_cases hi : i < n
      · simp [read, remaining, hi, lastObjects]
      · simp [read, remaining, hi, lastObjects]
  | _ => simp [read, remaining, sharedObjects, lastObjects]

/-- What `free_resources` reads and deletes has not been deleted. -/
theorem Inv.freeing_mem (h : s.Inv) {point : FreePoint} (hpoint : s.point = .freeing point)
    {object : JobObject n} (hobject : object ∈ read point ∨ (s.deletion point).1 = some object) :
    object ∈ s.heap := by
  rw [h.heap.mem_iff, live, hpoint]
  change object ∈ s.remaining point
  rcases hobject with hread | hdeletion
  · exact s.read_subset point hread
  · rw [remaining_eq, hdeletion]
    exact List.mem_cons_self

/-- What the calls on the job read outside of `free_resources`. -/
theorem Inv.shared_mem (h : s.Inv) (hpoint : ∀ point, s.point ≠ .freeing point)
    {object : JobObject n} (hobject : object ∈ [.job, .state, .allThreads, .threadContexts]) :
    object ∈ s.heap := by
  rw [h.heap.mem_iff, live_of_not_freeing hpoint]
  simp only [List.mem_cons, List.not_mem_nil, or_false] at hobject
  rcases hobject with rfl | rfl | rfl | rfl <;> simp [lastObjects]

/-- **The objects of a job.** In every run of the workers and of the calls on a job, no object is
allocated twice: a worker that has not returned finds the shared objects, its own and the vectors of
all groups on the heap, and so does the main thread outside of `free_resources`. There, every object
that is read or deleted has not been deleted before. The deletions come to an end, and then nothing
is left on the heap. -/
theorem objects_released (client : Client InputPair K V OutputPair) (inputVec : List InputPair)
    (outputVec : List OutputPair) {events : List (LifeEvent n)}
    {s : Life n InputPair K V OutputPair}
    (hrun : Run (Step client inputVec) (create n K V inputVec outputVec) events s) :
    s.heap.Nodup ∧ s.groups.length = s.job.afterShuffle.length ∧
    (∀ i : Fin n, i.val < s.started → (s.job.workers i).point ≠ .reducePhase .out →
      ∀ object ∈ s.reached i, object ∈ s.heap) ∧
    ((∀ point, s.point ≠ .freeing point) →
      ∀ object ∈ [JobObject.job, .state, .allThreads, .threadContexts], object ∈ s.heap) ∧
    (∀ point, s.point = .freeing point →
      s.job.Done ∧
      (∀ object, object ∈ read point ∨ (s.deletion point).1 = some object → object ∈ s.heap) ∧
      (∃ rest last, Run (Step client inputVec) s rest last ∧ last.point = .freeing .freed)) ∧
    (s.point = .freeing .freed → s.heap = []) := by
  have h := run_inv hrun
  refine ⟨h.nodup, h.length, ?_, ?_, ?_, ?_⟩
  · exact fun i hstarted hi object hobject => h.reached_mem hstarted hi hobject
  · exact fun hpoint object hobject => h.shared_mem hpoint hobject
  · intro point hpoint
    have hknown := h.known
    rw [hpoint] at hknown
    exact ⟨hknown, fun object hobject => h.freeing_mem hpoint hobject,
      exists_freed client inputVec s point hpoint⟩
  · intro hpoint
    have hheap := h.heap
    rw [live, hpoint] at hheap
    exact hheap.eq_nil

/-- A job with two workers and two groups is closed as soon as it is created. -/
theorem objects_released_three : ∃ (s s' : Life 2 Nat Nat Nat Nat) (rest : List (LifeEvent 2)),
    s.job.Done ∧ s.groups.length = 2 ∧ s.heap.Nodup ∧ s.point = .freeing (.intermediateVec 0) ∧
    Run (Step echoClient [7, 5, 7]) s rest s' ∧ s'.heap = [] := by
  obtain ⟨mapping, released, counted, done, h⟩ := Job.exists_twoWorkers
  obtain ⟨events, hjob⟩ := h.exists_run
  have hjob' : Run (Job.Step echoClient [7, 5, 7]) (Job.create 2 Nat Nat [7, 5, 7] []) events done :=
    hjob.mono fun _ _ _ hstep => hstep.1
  have hstart : Run (Step echoClient [7, 5, 7]) (create 2 Nat Nat [7, 5, 7] []) [] _ := .start
  have hcontext := hstart.next (.newContext (i := 0) rfl)
  have hthread := hcontext.next (.pthreadCreate (i := 0) rfl)
  have hcontext' := hthread.next (.newContext (i := 1) rfl)
  have hthread' := hcontext'.next (.pthreadCreate (i := 1) rfl)
  have hclose := (hthread'.next (.created rfl)).next (.close rfl)
  obtain ⟨s, hworkers, rfl, hpoint, -⟩ := run_workers (s := { create 2 Nat Nat [7, 5, 7] [] with
    heap := _, point := .joining true 0, started := 2, threadJoin := true }) le_rfl hjob'
  have hjoin := (hclose.append hworkers).next (.join (i := 0) hpoint (h.done_points 0))
  have hjoin' := hjoin.next (.join (i := 1) rfl (h.done_points 1))
  have hjoined := hjoin'.next (.joined rfl)
  obtain ⟨hnodup, hgroups, -, -, hfreeing, -⟩ := objects_released echoClient [7, 5, 7] [] hjoined
  obtain ⟨hdone, -, rest, last, hfree, hfreed⟩ := hfreeing (.intermediateVec 0) rfl
  obtain ⟨-, -, -, -, -, hempty⟩ := objects_released echoClient [7, 5, 7] [] (hjoined.append hfree)
  rw [show _ = 2 from congrArg List.length h.done_groups] at hgroups
  exact ⟨_, last, rest, hdone, hgroups, hnodup, rfl, hfree, hempty hfreed⟩

end Life

end OsExercises.MapReduce
