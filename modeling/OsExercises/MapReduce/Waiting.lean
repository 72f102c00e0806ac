import OsExercises.MapReduce.Leader

/-!
# Waiting for a job

`waitForJob` returns at once when `thread_join` is set, and sets it before it joins the workers. So
the flag says that somebody waits, not that the workers have returned: a second caller that finds it
set returns early, and two callers that find it unset join every worker twice.

Any number of clients call `waitForJob`, and one calls `closeJobHandle`, which calls `waitForJob` and
frees the job; after it has begun no new `waitForJob` begins. A call, or a worker, that is still under
way when the job is freed would go on with a deleted job, so it makes no step from there. `joined`
counts the joins of each worker; it is not in the source.
-/

namespace OsExercises.MapReduce

open Function (update)

/-- Where a call of `waitForJob` is: it will read the flag, it will set the flag, or it will join the
workers from `i` on. -/
inductive WaitPoint where
  | idle
  | entered
  | checked
  | joining (i : Nat)
  | returned
deriving DecidableEq

/-- The call has found the flag unset, and has not joined all workers yet. -/
def WaitPoint.waits : WaitPoint → Bool
  | .checked => true
  | .joining _ => true
  | _ => false

/-- A call of `waitForJob` by a client, or the one in `closeJobHandle`. -/
inductive Caller (ι : Type) where
  | client (c : ι)
  | close
deriving DecidableEq

/-- A job with the calls that wait for it. -/
structure Awaited (ι : Type) (n : Nat) (InputPair K V OutputPair : Type) where
  job : Job n InputPair K V OutputPair
  threadJoin : Bool
  calls : Caller ι → WaitPoint
  freed : Bool
  joined : Fin n → Nat

inductive AwaitedEvent (ι : Type) (n : Nat) where
  | worker (event : JobEvent n)
  | enter (c : Caller ι)
  | check (c : Caller ι)
  | setJoin (c : Caller ι)
  | join (c : Caller ι)
  | leave (c : Caller ι)
  | free

namespace Job

variable {n : Nat} {InputPair K V OutputPair : Type} {client : Client InputPair K V OutputPair}
  {inputVec : List InputPair} {s s' : Job n InputPair K V OutputPair} {i : Fin n}

theorem not_own_of_returned (hpoint : (s.workers i).point = .reducePhase .out) :
    ¬ Step client inputVec s (.own i) s' := by
  intro hstep
  cases hstep with
  | mapLoad hi | mapNext hi | map hi _ _ | mapCount hi | sort hi _ | pushBack hi | countElements hi
  | resetState hi | resetNext hi | shuffle hi _ | countShuffled hi | reduceLoad hi | reduceNext hi
  | reduce hi _ _ | emit3 hi _ | reduceCount hi _ _ =>
      rw [hpoint] at hi
      cases hi

theorem returned_step {event : JobEvent n} (hstep : Step client inputVec s event s')
    (hpoint : (s.workers i).point = .reducePhase .out) :
    (s'.workers i).point = .reducePhase .out := by
  cases event with
  | own j =>
      have hne : i ≠ j := by
        rintro rfl
        exact not_own_of_returned hpoint hstep
      obtain ⟨worker, hown⟩ := own_step hstep
      rw [hown.workers, Function.update_of_ne hne, hpoint]
  | barrier event =>
      cases hstep with
      | barrier _ _ _ => exact hpoint
      | @barrierReturn j barrier hj _ =>
          have hne : i ≠ j := by
            rintro rfl
            rw [hpoint] at hj
            cases hj
          change ((s.goTo j _).workers i).point = _
          rw [goTo, setWorker_of_ne s hne, hpoint]

end Job

namespace Awaited

variable {ι : Type} [DecidableEq ι] {n : Nat} {InputPair K V OutputPair : Type}

def create (ι : Type) (n : Nat) (K V : Type) (inputVec : List InputPair)
    (outputVec : List OutputPair) : Awaited ι n InputPair K V OutputPair where
  job := .create n K V inputVec outputVec
  threadJoin := false
  calls := fun _ => .idle
  freed := false
  joined := fun _ => 0

def goTo (s : Awaited ι n InputPair K V OutputPair) (c : Caller ι) (point : WaitPoint) :
    Awaited ι n InputPair K V OutputPair :=
  { s with calls := update s.calls c point }

/-- The worker has returned from `thread_flow`. -/
def WorkerReturned (s : Awaited ι n InputPair K V OutputPair) (i : Fin n) : Prop :=
  (s.job.workers i).point = .reducePhase .out

/-- The workers and the calls use the job, so none of them has a step behind `free_resources`. -/
inductive Step (client : Client InputPair K V OutputPair) (inputVec : List InputPair) :
    Awaited ι n InputPair K V OutputPair → AwaitedEvent ι n →
    Awaited ι n InputPair K V OutputPair → Prop where
  | worker {s : Awaited ι n InputPair K V OutputPair} {event : JobEvent n}
      {job : Job n InputPair K V OutputPair} :
      s.freed = false → Job.Step client inputVec s.job event job →
      Step client inputVec s (.worker event) { s with job := job }
  | enter {s : Awaited ι n InputPair K V OutputPair} {c : Caller ι} :
      s.calls c = .idle → s.calls .close = .idle →
      Step client inputVec s (.enter c) (s.goTo c .entered)
  | check {s : Awaited ι n InputPair K V OutputPair} {c : Caller ι} :
      s.freed = false → s.calls c = .entered →
      Step client inputVec s (.check c) (s.goTo c (if s.threadJoin then .returned else .checked))
  | setJoin {s : Awaited ι n InputPair K V OutputPair} {c : Caller ι} :
      s.freed = false → s.calls c = .checked →
      Step client inputVec s (.setJoin c) { s.goTo c (.joining 0) with threadJoin := true }
  | join {s : Awaited ι n InputPair K V OutputPair} {c : Caller ι} {i : Fin n} :
      s.freed = false → s.calls c = .joining i → s.WorkerReturned i →
      Step client inputVec s (.join c)
        { s.goTo c (.joining (i + 1)) with joined := update s.joined i (s.joined i + 1) }
  | leave {s : Awaited ι n InputPair K V OutputPair} {c : Caller ι} :
      s.freed = false → s.calls c = .joining n →
      Step client inputVec s (.leave c) (s.goTo c .returned)
  | free {s : Awaited ι n InputPair K V OutputPair} :
      s.calls .close = .returned → s.freed = false →
      Step client inputVec s .free { s with freed := true }

/-- Who has waited knows that the workers have returned, and no worker is joined twice. -/
structure ReallyWaits (s : Awaited ι n InputPair K V OutputPair) : Prop where
  returned : ∀ c, s.calls c = .returned → s.job.Done
  freed : s.freed = true → s.job.Done
  joined_le : ∀ i, s.joined i ≤ 1

/-- A call reads the flag when no other call waits, or when the flag is set and all workers have
returned. And the job is freed when no other call is under way. -/
def Alone (s : Awaited ι n InputPair K V OutputPair) :
    AwaitedEvent ι n → Awaited ι n InputPair K V OutputPair → Prop
  | .check _, _ => (∀ c, (s.calls c).waits = false) ∨ (s.threadJoin = true ∧ s.job.Done)
  | .free, _ => ∀ c, s.calls c = .idle ∨ s.calls c = .returned
  | _, _ => True

/-! ### The invariant -/

section Invariant

variable {client : Client InputPair K V OutputPair} {inputVec : List InputPair}
  {outputVec : List OutputPair} {s s' : Awaited ι n InputPair K V OutputPair}
  {event : AwaitedEvent ι n} {c : Caller ι} {point : WaitPoint}

theorem calls_goTo (s : Awaited ι n InputPair K V OutputPair) (c : Caller ι) (point : WaitPoint)
    (c' : Caller ι) : (s.goTo c point).calls c' = if c' = c then point else s.calls c' :=
  Function.update_apply s.calls c point c'

/-- At most one call waits. Until it sets the flag no worker is joined, and then the workers are joined
one after the other; when the flag is set and no call waits any more, all workers have returned. -/
structure Inv (s : Awaited ι n InputPair K V OutputPair) : Prop where
  only : ∀ {c c'}, (s.calls c).waits = true → (s.calls c').waits = true → c = c'
  checked : ∀ {c}, s.calls c = .checked → s.threadJoin = false
  joining : ∀ {c k}, s.calls c = .joining k → s.threadJoin = true ∧
    ∀ i : Fin n, s.joined i = (if i.val < k then 1 else 0) ∧ (i.val < k → s.WorkerReturned i)
  unset : s.threadJoin = false → ∀ i, s.joined i = 0
  set : s.threadJoin = true → (∀ c, (s.calls c).waits = false) → s.job.Done
  reallyWaits : s.ReallyWaits

omit [DecidableEq ι] in
theorem inv_create : (create ι n K V inputVec outputVec).Inv where
  only := nofun
  checked := nofun
  joining := nofun
  unset _ _ := rfl
  set := nofun
  reallyWaits := ⟨nofun, nofun, fun _ => Nat.zero_le 1⟩

omit [DecidableEq ι] in
theorem Inv.worker (h : s.Inv) {event : JobEvent n} {job : Job n InputPair K V OutputPair}
    (hstep : Job.Step client inputVec s.job event job) : Inv { s with job := job } := by
  have hreturned : ∀ {i}, s.WorkerReturned i → WorkerReturned { s with job := job } i :=
    fun hi => Job.returned_step hstep hi
  have hdone : s.job.Done → job.Done := fun hall i => hreturned (hall i)
  obtain ⟨honly, hchecked, hjoining, hunset, hset, hwaits⟩ := h
  refine ⟨honly, hchecked, ?_, hunset, fun hflag hnone => hdone (hset hflag hnone), ?_⟩
  · intro c k hpoint
    obtain ⟨hflag, hworkers⟩ := hjoining hpoint
    exact ⟨hflag, fun i => ⟨(hworkers i).1, fun hlt => hreturned ((hworkers i).2 hlt)⟩⟩
  · exact ⟨fun c hpoint => hdone (hwaits.returned c hpoint), fun hfreed => hdone (hwaits.freed hfreed),
      hwaits.joined_le⟩

/-- A call that does not wait goes where it does not wait either. -/
theorem Inv.quiet (h : s.Inv) (hbefore : (s.calls c).waits = false) (hafter : point.waits = false)
    (hreturned : point = .returned → s.job.Done) : (s.goTo c point).Inv := by
  have hwaits : ∀ {c'}, ((s.goTo c point).calls c').waits = (s.calls c').waits := by
    intro c'
    rw [calls_goTo]
    split
    · rename_i heq
      rw [heq, hbefore, hafter]
    · rfl
  have hsame : ∀ {c'}, ((s.goTo c point).calls c').waits = true →
      (s.goTo c point).calls c' = s.calls c' := by
    intro c' hway
    rw [calls_goTo] at hway ⊢
    split
    · rw [if_pos ‹_›, hafter] at hway
      cases hway
    · rfl
  constructor
  · intro c₁ c₂ h₁ h₂
    rw [hwaits] at h₁ h₂
    exact h.only h₁ h₂
  · intro c' hpoint
    have hway : ((s.goTo c point).calls c').waits = true := by rw [hpoint]; rfl
    exact h.checked ((hsame hway).symm.trans hpoint)
  · intro c' k hpoint
    have hway : ((s.goTo c point).calls c').waits = true := by rw [hpoint]; rfl
    exact h.joining ((hsame hway).symm.trans hpoint)
  · exact h.unset
  · intro hflag hnone
    exact h.set hflag fun c' => hwaits.symm.trans (hnone c')
  · refine ⟨?_, h.reallyWaits.freed, h.reallyWaits.joined_le⟩
    intro c' hpoint
    rw [calls_goTo] at hpoint
    split at hpoint
    · exact hreturned hpoint
    · exact h.reallyWaits.returned c' hpoint

/-- A call that waits goes where it waits, and no other call does. -/
theorem Inv.waiting (h : s.Inv) (hcalls : s'.calls = (s.goTo c point).calls)
    (hjob : s'.job = s.job) (hfreed : s'.freed = s.freed)
    (hothers : ∀ c', c' ≠ c → (s.calls c').waits = false) (hwaits : point.waits = true)
    (hchecked : point = .checked → s'.threadJoin = false)
    (hjoining : ∀ k, point = .joining k → s'.threadJoin = true ∧
      ∀ i : Fin n, s'.joined i = (if i.val < k then 1 else 0) ∧ (i.val < k → s'.WorkerReturned i))
    (hunset : s'.threadJoin = false → ∀ i, s'.joined i = 0) (hle : ∀ i, s'.joined i ≤ 1) :
    s'.Inv := by
  have hself : s'.calls c = point := by rw [hcalls, calls_goTo, if_pos rfl]
  have hother : ∀ {c'}, c' ≠ c → s'.calls c' = s.calls c' := by
    intro c' hne
    rw [hcalls, calls_goTo, if_neg hne]
  have honly : ∀ {c'}, (s'.calls c').waits = true → c' = c := by
    intro c' hway
    by_contra hne
    rw [hother hne, hothers c' hne] at hway
    cases hway
  constructor
  · intro c₁ c₂ h₁ h₂
    rw [honly h₁, honly h₂]
  · intro c' hpoint
    obtain rfl : c' = c := honly (by rw [hpoint]; rfl)
    exact hchecked (hself.symm.trans hpoint)
  · intro c' k hpoint
    obtain rfl : c' = c := honly (by rw [hpoint]; rfl)
    exact hjoining k (hself.symm.trans hpoint)
  · exact hunset
  · intro _ hnone
    have hself' := hnone c
    rw [hself, hwaits] at hself'
    cases hself'
  · refine ⟨?_, by rw [hfreed, hjob]; exact h.reallyWaits.freed, hle⟩
    intro c' hpoint
    rw [hjob]
    have hne : c' ≠ c := by
      rintro rfl
      rw [hself] at hpoint
      rw [hpoint] at hwaits
      cases hwaits
    rw [hother hne] at hpoint
    exact h.reallyWaits.returned c' hpoint

omit [DecidableEq ι] in
theorem Inv.others (h : s.Inv) (hc : (s.calls c).waits = true) (c' : Caller ι) (hne : c' ≠ c) :
    (s.calls c').waits = false := by
  by_contra hway
  rw [Bool.not_eq_false] at hway
  exact hne (h.only hway hc)

theorem Inv.check (h : s.Inv) (hpoint : s.calls c = .entered)
    (halone : s.Alone (.check c) s') :
    (s.goTo c (if s.threadJoin then .returned else .checked)).Inv := by
  cases hflag : s.threadJoin with
  | true =>
      apply h.quiet (by rw [hpoint]; rfl) rfl
      intro _
      rcases halone with hnone | ⟨-, hdone⟩
      · exact h.set hflag hnone
      · exact hdone
  | false =>
      have hnone : ∀ c, (s.calls c).waits = false := by
        rcases halone with hnone | ⟨hset, -⟩
        · exact hnone
        · rw [hflag] at hset
          cases hset
      exact h.waiting rfl rfl rfl (fun c' _ => hnone c') rfl (fun _ => hflag) nofun h.unset
        h.reallyWaits.joined_le

theorem Inv.setJoin (h : s.Inv) (hpoint : s.calls c = .checked) :
    Inv { s.goTo c (.joining 0) with threadJoin := true } := by
  have hunset := h.unset (h.checked hpoint)
  refine h.waiting rfl rfl rfl (h.others (by rw [hpoint]; rfl)) rfl nofun ?_ nofun
    h.reallyWaits.joined_le
  rintro k hk
  cases hk
  exact ⟨rfl, fun i => ⟨by rw [if_neg (Nat.not_lt_zero _)]; exact hunset i, nofun⟩⟩

theorem Inv.join (h : s.Inv) {i : Fin n} (hpoint : s.calls c = .joining i)
    (hreturned : s.WorkerReturned i) :
    Inv { s.goTo c (.joining (i + 1)) with joined := update s.joined i (s.joined i + 1) } := by
  obtain ⟨hflag, hworkers⟩ := h.joining hpoint
  have hjoined : ∀ j : Fin n, update s.joined i (s.joined i + 1) j =
      if j.val < i.val + 1 then 1 else 0 := by
    intro j
    by_cases heq : j = i
    · rw [heq, Function.update_self, (hworkers i).1, if_neg (lt_irrefl _), if_pos (Nat.lt_succ_self _)]
    · have hne : j.val ≠ i.val := fun hval => heq (Fin.ext hval)
      rw [Function.update_of_ne heq, (hworkers j).1]
      by_cases hlt : j.val < i.val
      · rw [if_pos hlt, if_pos (by omega)]
      · rw [if_neg hlt, if_neg (by omega)]
  refine h.waiting rfl rfl rfl (h.others (by rw [hpoint]; rfl)) rfl nofun ?_ ?_ ?_
  · rintro k hk
    cases hk
    refine ⟨hflag, fun j => ⟨hjoined j, ?_⟩⟩
    intro hlt
    by_cases heq : j = i
    · exact heq ▸ hreturned
    · exact (hworkers j).2 (by omega)
  · intro hunset
    rw [show s.threadJoin = false from hunset] at hflag
    cases hflag
  · intro j
    change update s.joined i (s.joined i + 1) j ≤ 1
    rw [hjoined j]
    split <;> omega

/-- Behind the last join all workers have returned. -/
theorem Inv.leave (h : s.Inv) (hpoint : s.calls c = .joining n) : (s.goTo c .returned).Inv := by
  obtain ⟨hflag, hworkers⟩ := h.joining hpoint
  have hdone : s.job.Done := fun i => (hworkers i).2 i.isLt
  have hnone : ∀ c', ((s.goTo c .returned).calls c').waits = false := by
    intro c'
    rw [calls_goTo]
    split
    · rfl
    · exact h.others (by rw [hpoint]; rfl) c' ‹_›
  have hnever : ∀ {c' point}, (s.goTo c .returned).calls c' = point → point.waits = true →
      False := by
    intro c' point hpoint' hway
    rw [← hpoint', hnone c'] at hway
    cases hway
  constructor
  · exact fun hway _ => (hnever rfl hway).elim
  · exact fun hpoint' => (hnever hpoint' rfl).elim
  · exact fun hpoint' => (hnever hpoint' rfl).elim
  · exact h.unset
  · exact fun _ _ => hdone
  · exact ⟨fun _ _ => hdone, h.reallyWaits.freed, h.reallyWaits.joined_le⟩

omit [DecidableEq ι] in
theorem Inv.free (h : s.Inv) (hpoint : s.calls .close = .returned) :
    Inv { s with freed := true } := by
  obtain ⟨honly, hchecked, hjoining, hunset, hset, hwaits⟩ := h
  exact ⟨honly, hchecked, hjoining, hunset, hset, hwaits.returned,
    fun _ => hwaits.returned _ hpoint, hwaits.joined_le⟩

theorem Inv.step (h : s.Inv) (hstep : Step client inputVec s event s')
    (halone : s.Alone event s') : s'.Inv := by
  cases hstep with
  | worker _ hstep => exact h.worker hstep
  | enter hidle _ => exact h.quiet (by rw [hidle]; rfl) rfl nofun
  | check _ hentered => exact h.check hentered halone
  | setJoin _ hchecked => exact h.setJoin hchecked
  | join _ hjoining hreturned => exact h.join hjoining hreturned
  | leave _ hjoining => exact h.leave hjoining
  | free hreturned _ => exact h.free hreturned

theorem run_workers (hfreed : s.freed = false) {events : List (JobEvent n)}
    {job : Job n InputPair K V OutputPair}
    (hrun : Run (Job.Step client inputVec) s.job events job) :
    Run (Meeting (Step client inputVec) Alone) s (events.map .worker) { s with job := job } := by
  induction hrun with
  | start => exact .start
  | next _ hlast ih =>
      rw [List.map_append]
      exact ih.next ⟨.worker hfreed hlast, trivial⟩

/-- In a run in which every call reads the flag alone, and no call is under way when the job is freed,
waiting really waits. -/
theorem reallyWaits_of_alone (client : Client InputPair K V OutputPair) {inputVec : List InputPair}
    {outputVec : List OutputPair} {events : List (AwaitedEvent ι n)}
    {s : Awaited ι n InputPair K V OutputPair}
    (hrun : Run (Meeting (Step client inputVec) Alone)
      (create ι n K V inputVec outputVec) events s) : s.ReallyWaits := by
  have h : s.Inv :=
    hrun.invariant inv_create fun _ _ _ hinv hstep => hinv.step hstep.1 hstep.2
  exact h.reallyWaits

end Invariant

/-- Two clients wait for a job with one worker at the same time, and then the job is closed. The second
one reads the flag when the worker has returned and the first one has still to join it. -/
theorem exists_freed_seven : ∃ events s,
    Run (Meeting (Step echoClient [7]) Alone) (create Bool 1 Nat Nat [7] []) events s ∧
    s.freed = true ∧ ∀ c, s.calls c = .returned := by
  obtain ⟨events, job, hjob, hdone, -⟩ := Job.exists_run_seven
  have hstart : Run (Meeting (Step echoClient [7]) Alone) (create Bool 1 Nat Nat [7] []) [] _ :=
    .start
  have henter := hstart.next ⟨.enter (c := .client true) rfl rfl, trivial⟩
  have hcheck := henter.next ⟨.check (c := .client true) rfl rfl, Or.inl fun c => by
    cases c with
    | client c => cases c <;> rfl
    | close => rfl⟩
  have hset := hcheck.next ⟨.setJoin (c := .client true) rfl rfl, trivial⟩
  have henter' := hset.next ⟨.enter (c := .client false) rfl rfl, trivial⟩
  have hworkers := henter'.append (run_workers rfl (hjob.mono fun _ _ _ hstep => hstep.1))
  have hcheck' := hworkers.next ⟨.check (c := .client false) rfl rfl, Or.inr ⟨rfl, hdone⟩⟩
  have hjoin := hcheck'.next ⟨.join (c := .client true) (i := 0) rfl rfl (hdone 0), trivial⟩
  have hleave := hjoin.next ⟨.leave (c := .client true) rfl rfl, trivial⟩
  have hclose := hleave.next ⟨.enter (c := .close) rfl rfl, trivial⟩
  have hclosing := hclose.next ⟨.check (c := .close) rfl rfl, Or.inr ⟨rfl, hdone⟩⟩
  have hfree := hclosing.next ⟨.free rfl rfl, fun c => by
    cases c with
    | client c => cases c <;> exact Or.inr rfl
    | close => exact Or.inr rfl⟩
  refine ⟨_, _, hfree, rfl, fun c => ?_⟩
  cases c with
  | client c => cases c <;> rfl
  | close => rfl

theorem reallyWaits_seven : ∃ s : Awaited Bool 1 Nat Nat Nat Nat,
    s.freed = true ∧ (∀ c, s.calls c = .returned) ∧ s.ReallyWaits := by
  obtain ⟨events, s, hrun, hfreed, hreturned⟩ := exists_freed_seven
  exact ⟨s, hfreed, hreturned, reallyWaits_of_alone echoClient hrun⟩

/-- Counterexample: the worker has not moved when the second of two clients returns. -/
theorem exists_early_return : ∃ events s,
    Run (Step echoClient [7]) (create Bool 1 Nat Nat [7] []) events s ∧
    s.calls (.client false) = .returned ∧ ¬ s.job.Done ∧ ¬ s.ReallyWaits := by
  have hstart : Run (Step echoClient [7]) (create Bool 1 Nat Nat [7] []) [] _ := .start
  have henter := hstart.next (.enter (c := .client true) rfl rfl)
  have hcheck := henter.next (.check (c := .client true) rfl rfl)
  have hset := hcheck.next (.setJoin (c := .client true) rfl rfl)
  have henter' := hset.next (.enter (c := .client false) rfl rfl)
  have hcheck' := henter'.next (.check (c := .client false) rfl rfl)
  refine ⟨_, _, hcheck', ?_⟩
  generalize hs : goTo _ (.client false) _ = s
  have hreturned : s.calls (.client false) = .returned := by rw [← hs]; rfl
  have hworking : ¬ s.job.Done := by
    intro hdone
    have hpoint := hdone 0
    rw [← hs] at hpoint
    cases hpoint
  exact ⟨hreturned, hworking, fun hwaits => hworking (hwaits.returned _ hreturned)⟩

end Awaited

end OsExercises.MapReduce
