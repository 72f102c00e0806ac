import OsExercises.MapReduce.Phases

/-!
# A job that cannot be started

When the mutex cannot be initialised or a thread cannot be created, `create_job` calls
`free_resources` and ends the program. `free_resources` goes through all slots of `thread_contexts`,
an array that `create_job` allocates without a value and fills one slot at a time, and deletes the job
while the workers that were started before run on.
-/

namespace OsExercises.MapReduce

open Function (update)

/-- A slot of `thread_contexts`. One that is not assigned has no value that may be read. -/
inductive Slot where
  | unassigned
  | context
  | deleted
deriving DecidableEq

/-- The system call of `create_job` that fails. -/
inductive FailurePoint (n : Nat) where
  | mutexInit
  | pthreadCreate (i : Fin n)
deriving DecidableEq

/-- Where `create_job` is: with `starting i` it makes the context of worker `i`, and with `creating i`
it creates its thread. With `cleaning i` it is in `free_resources`, in front of slot `i`. -/
inductive StartPoint where
  | initMutex
  | resetCounter
  | starting (i : Nat)
  | creating (i : Nat)
  | destroyMutex
  | cleaning (i : Nat)
  | freed
  | created
deriving DecidableEq

structure Start (n : Nat) (InputPair K V OutputPair : Type) where
  job : Job n InputPair K V OutputPair
  slots : Fin n → Slot
  started : Nat
  point : StartPoint

inductive StartEvent (n : Nat) where
  | main
  | worker (event : JobEvent n)

def JobEvent.thread {n : Nat} : JobEvent n → Fin n
  | .own i => i
  | .barrier event => event.thread

namespace Start

variable {n : Nat} {InputPair K V OutputPair : Type}

/-- Behind the constructor of `Job`. -/
def create (n : Nat) (K V : Type) (inputVec : List InputPair) (outputVec : List OutputPair) :
    Start n InputPair K V OutputPair where
  job := { Job.create n K V inputVec outputVec with atomicState := 0 }
  slots := fun _ => .unassigned
  started := 0
  point := .initMutex

/-- The worker was started, and can take a step. -/
def CanStep (client : Client InputPair K V OutputPair) (inputVec : List InputPair)
    (s : Start n InputPair K V OutputPair) : Prop :=
  ∃ event job, event.thread < s.started ∧ Job.Step client inputVec s.job event job

inductive Step (client : Client InputPair K V OutputPair) (inputVec : List InputPair)
    (failure : FailurePoint n) :
    Start n InputPair K V OutputPair → StartEvent n → Start n InputPair K V OutputPair → Prop where
  | worker {s : Start n InputPair K V OutputPair} {event : JobEvent n}
      {job : Job n InputPair K V OutputPair} :
      event.thread < s.started → Job.Step client inputVec s.job event job →
      Step client inputVec failure s (.worker event) { s with job := job }
  | initMutex {s : Start n InputPair K V OutputPair} :
      s.point = .initMutex →
      Step client inputVec failure s .main
        { s with point := if failure = .mutexInit then .cleaning 0 else .resetCounter }
  | resetCounter {s : Start n InputPair K V OutputPair} :
      s.point = .resetCounter →
      Step client inputVec failure s .main
        { s with
          job := { s.job with
            atomicState := resetWord .map inputVec.length
            atomicNextToProcess := 0 }
          point := .starting 0 }
  | newContext {s : Start n InputPair K V OutputPair} {i : Fin n} :
      s.point = .starting i →
      Step client inputVec failure s .main
        { s with slots := update s.slots i .context, point := .creating i }
  | pthreadCreate {s : Start n InputPair K V OutputPair} {i : Fin n} :
      s.point = .creating i → failure ≠ .pthreadCreate i →
      Step client inputVec failure s .main
        { s with started := i + 1, point := .starting (i + 1) }
  | createFails {s : Start n InputPair K V OutputPair} {i : Fin n} :
      s.point = .creating i → failure = .pthreadCreate i →
      Step client inputVec failure s .main { s with point := .destroyMutex }
  | done {s : Start n InputPair K V OutputPair} :
      s.point = .starting n → Step client inputVec failure s .main { s with point := .created }
  | destroyMutex {s : Start n InputPair K V OutputPair} :
      s.point = .destroyMutex →
      Step client inputVec failure s .main { s with point := .cleaning 0 }
  | deleteContext {s : Start n InputPair K V OutputPair} {i : Fin n} :
      s.point = .cleaning i →
      Step client inputVec failure s .main
        { s with slots := update s.slots i .deleted, point := .cleaning (i + 1) }
  | deleteJob {s : Start n InputPair K V OutputPair} :
      s.point = .cleaning n → Step client inputVec failure s .main { s with point := .freed }

/-- `free_resources` reads only slots that are assigned, and it deletes contexts and the job only when
no worker that was started can take a step. -/
structure CleansUp (client : Client InputPair K V OutputPair) (inputVec : List InputPair)
    (s : Start n InputPair K V OutputPair) : Prop where
  assigned : ∀ i : Fin n, s.point = .cleaning i → s.slots i = .context
  unused : ∀ i, s.point = .cleaning i ∨ s.point = .freed → ¬ s.CanStep client inputVec

/-! ### Before the clean-up -/

section

variable {client : Client InputPair K V OutputPair} {inputVec : List InputPair}
  {outputVec : List OutputPair} {failure : FailurePoint n} {s s' : Start n InputPair K V OutputPair}
  {event : StartEvent n}

/-- The slots below `k` are assigned. -/
def AssignedBelow (k : Nat) (s : Start n InputPair K V OutputPair) : Prop :=
  ∀ i : Fin n, s.slots i = if i.val < k then .context else .unassigned

theorem AssignedBelow.newContext {k : Nat} (h : AssignedBelow k s) (hk : k < n)
    (hslots : s'.slots = update s.slots ⟨k, hk⟩ .context) : AssignedBelow (k + 1) s' := by
  intro i
  rw [hslots]
  by_cases heq : i = ⟨k, hk⟩
  · rw [heq, Function.update_self, if_pos (Nat.lt_succ_self k)]
  · have hne : i.val ≠ k := fun hval => heq (Fin.ext hval)
    rw [Function.update_of_ne heq, h i]
    by_cases hlt : i.val < k
    · rw [if_pos hlt, if_pos (by omega)]
    · rw [if_neg hlt, if_neg (by omega)]

/-- `create_job` is in front of worker `k`, and no worker has moved. -/
structure UpTo (k : Nat) (s : Start n InputPair K V OutputPair) : Prop where
  point : s.point = .starting k
  started : s.started = k
  slots : AssignedBelow k s
  workers : ∀ i, (s.job.workers i).point = .mapPhase .load

/-- `create_job` alone gets to the thread that cannot be created. -/
theorem exists_upTo {k : Nat} (hk : k ≤ n) (hfailure : failure ≠ .mutexInit)
    (hbefore : ∀ i : Fin n, i.val < k → failure ≠ .pthreadCreate i) :
    ∃ events s, Run (Step client inputVec failure) (create n K V inputVec outputVec) events s ∧
      UpTo k s := by
  induction k with
  | zero =>
      have hinit : Run (Step client inputVec failure) (create n K V inputVec outputVec) _ _ :=
        Run.start.next (.initMutex rfl)
      have hreset := hinit.next (.resetCounter (if_neg hfailure))
      exact ⟨_, _, hreset, rfl, rfl, fun _ => rfl, fun _ => rfl⟩
  | succ k ih =>
      obtain ⟨events, s, hrun, h⟩ := ih (by omega) fun i hi => hbefore i (by omega)
      have hcontext := hrun.next (.newContext (i := ⟨k, hk⟩) h.point)
      have hcreate := hcontext.next
        (.pthreadCreate (i := ⟨k, hk⟩) rfl (hbefore _ (Nat.lt_succ_self k)))
      exact ⟨_, _, hcreate, rfl, rfl, h.slots.newContext hk rfl, h.workers⟩

theorem exists_cleaning (k : Fin n) :
    ∃ events s, Run (Step client inputVec (.pthreadCreate k)) (create n K V inputVec outputVec)
      events s ∧ s.point = .cleaning 0 ∧ s.started = k ∧ AssignedBelow (k + 1) s ∧
      ∀ i, (s.job.workers i).point = .mapPhase .load := by
  have hbefore : ∀ i : Fin n, i.val < k.val → FailurePoint.pthreadCreate k ≠ .pthreadCreate i := by
    intro i hi heq
    cases heq
    exact absurd hi (lt_irrefl _)
  obtain ⟨events, s, hrun, h⟩ :
      ∃ events s, Run (Step client inputVec (.pthreadCreate k)) (create n K V inputVec outputVec)
        events s ∧ UpTo k.val s := exists_upTo k.isLt.le nofun hbefore
  have hcontext := hrun.next (.newContext (i := k) h.point)
  have hfails := hcontext.next (.createFails (i := k) rfl rfl)
  have hdestroy := hfails.next (.destroyMutex rfl)
  exact ⟨_, _, hdestroy, rfl, h.started, h.slots.newContext k.isLt rfl, h.workers⟩

theorem canStep_of_load (hn : 0 < n) (hstarted : 0 < s.started)
    (hworkers : ∀ i, (s.job.workers i).point = .mapPhase .load) : s.CanStep client inputVec :=
  ⟨.own ⟨0, hn⟩, _, hstarted, .mapLoad (hworkers _)⟩

/-! ### A single worker -/

/-- With one worker that is never started, the slot is assigned as soon as the thread cannot be
created. -/
structure Single (s : Start 1 InputPair K V OutputPair) : Prop where
  started : s.started = 0
  starting : ∀ k, s.point = .starting k → k = 0
  assigned : (∃ k, s.point = .creating k) ∨ s.point = .destroyMutex ∨ s.point = .cleaning 0 →
    s.slots 0 = .context

theorem single_create : (create 1 K V inputVec outputVec).Single where
  started := rfl
  starting _ := nofun
  assigned := by
    rintro (⟨k, hk⟩ | hpoint | hpoint)
    · cases hk
    · cases hpoint
    · cases hpoint

theorem Single.step {s s' : Start 1 InputPair K V OutputPair} {event : StartEvent 1} (h : s.Single)
    {k : Fin 1} (hstep : Step client inputVec (.pthreadCreate k) s event s') : s'.Single := by
  obtain ⟨hstarted, hstarting, hassigned⟩ := h
  cases hstep with
  | worker _ _ => exact ⟨hstarted, hstarting, hassigned⟩
  | initMutex hpoint =>
      refine ⟨hstarted, fun _ => by simp, by simp⟩
  | resetCounter hpoint => exact ⟨hstarted, fun k hk => by cases hk; rfl, by simp⟩
  | @newContext i hpoint =>
      refine ⟨hstarted, nofun, fun _ => ?_⟩
      rw [Subsingleton.elim i 0]
      exact Function.update_self (0 : Fin 1) Slot.context s.slots
  | @pthreadCreate i _ hother => exact absurd (by rw [Subsingleton.elim k i]) hother
  | @createFails i hpoint _ => exact ⟨hstarted, nofun, fun _ => hassigned (Or.inl ⟨_, hpoint⟩)⟩
  | done hpoint => exact absurd (hstarting 1 hpoint) (by decide)
  | destroyMutex hpoint => exact ⟨hstarted, nofun, fun _ => hassigned (Or.inr (Or.inl hpoint))⟩
  | deleteContext hpoint => exact ⟨hstarted, nofun, by simp⟩
  | deleteJob hpoint => exact ⟨hstarted, nofun, by simp⟩

theorem Single.cleansUp {s : Start 1 InputPair K V OutputPair} (h : s.Single) :
    s.CleansUp client inputVec where
  assigned i hpoint := by
    obtain rfl := Subsingleton.elim i 0
    exact h.assigned (Or.inr (Or.inr hpoint))
  unused _ _ := by
    rintro ⟨event, job, hlt, -⟩
    rw [h.started] at hlt
    exact Nat.not_lt_zero _ hlt

/-- A failed start is cleaned up properly only when the first and only thread cannot be created. -/
theorem cleansUp_iff (hn : 1 ≤ n) (client : Client InputPair K V OutputPair)
    (inputVec : List InputPair) (outputVec : List OutputPair) (failure : FailurePoint n) :
    (∀ events s, Run (Step client inputVec failure) (create n K V inputVec outputVec) events s →
      CleansUp client inputVec s) ↔ n = 1 ∧ failure ≠ .mutexInit := by
  constructor
  · intro hall
    cases failure with
    | mutexInit =>
        have hfails : Run (Step client inputVec .mutexInit) (create n K V inputVec outputVec) _ _ :=
          Run.start.next (.initMutex rfl)
        have hslot := (hall _ _ hfails).assigned ⟨0, hn⟩ rfl
        cases hslot
    | pthreadCreate k =>
        obtain ⟨events, s, hrun, hpoint, hstarted, hslots, hworkers⟩ :
            ∃ events s, Run (Step client inputVec (.pthreadCreate k))
              (create n K V inputVec outputVec) events s ∧ s.point = .cleaning 0 ∧ s.started = k ∧
              AssignedBelow (k + 1) s ∧ ∀ i, (s.job.workers i).point = .mapPhase .load :=
          exists_cleaning k
        refine ⟨?_, nofun⟩
        -- no worker was started, and behind the first slot there is none
        have hfirst : k.val = 0 := by
          by_contra hk
          apply (hall _ _ hrun).unused 0 (Or.inl hpoint)
          exact canStep_of_load hn (by omega) hworkers
        by_contra hmore
        have hdelete := hrun.next (.deleteContext (i := ⟨0, hn⟩) hpoint)
        have hslot := (hall _ _ hdelete).assigned ⟨1, by omega⟩ rfl
        change update s.slots ⟨0, hn⟩ .deleted ⟨1, _⟩ = .context at hslot
        rw [Function.update_of_ne (by simp), hslots, hfirst] at hslot
        cases hslot
  · rintro ⟨rfl, hfailure⟩ events s hrun
    cases failure with
    | mutexInit => exact absurd rfl hfailure
    | pthreadCreate k =>
        have h : s.Single := hrun.invariant single_create fun _ _ _ hinv hstep => hinv.step hstep
        exact h.cleansUp

end

theorem cleansUp_one : ∃ events s,
    Run (Step echoClient [7] (.pthreadCreate 0)) (create 1 Nat Nat [7] []) events s ∧
    s.point = .cleaning 0 ∧ CleansUp echoClient [7] s := by
  obtain ⟨events, s, hrun, hpoint, -⟩ :
      ∃ events s, Run (Step echoClient [7] (.pthreadCreate (0 : Fin 1))) (create 1 Nat Nat [7] [])
        events s ∧ s.point = .cleaning 0 ∧ s.started = (0 : Fin 1).val ∧
        AssignedBelow ((0 : Fin 1).val + 1) s ∧
        ∀ i, (s.job.workers i).point = .mapPhase .load := exists_cleaning 0
  have hall := (cleansUp_iff (le_refl 1) echoClient [7] [] (.pthreadCreate 0)).mpr ⟨rfl, nofun⟩
  exact ⟨events, s, hrun, hpoint, hall events s hrun⟩

/-- Counterexample: the first of two threads cannot be created, and the second slot has no value. -/
theorem exists_unassigned_read : ∃ events s,
    Run (Step echoClient [7] (.pthreadCreate 0)) (create 2 Nat Nat [7] []) events s ∧
    s.point = .cleaning 1 ∧ s.slots 1 = .unassigned ∧ ¬ CleansUp echoClient [7] s := by
  obtain ⟨events, s, hrun, hpoint, -, hslots, -⟩ :
      ∃ events s, Run (Step echoClient [7] (.pthreadCreate (0 : Fin 2))) (create 2 Nat Nat [7] [])
        events s ∧ s.point = .cleaning 0 ∧ s.started = (0 : Fin 2).val ∧
        AssignedBelow ((0 : Fin 2).val + 1) s ∧
        ∀ i, (s.job.workers i).point = .mapPhase .load := exists_cleaning 0
  have hdelete := hrun.next (.deleteContext (i := 0) hpoint)
  have hslot : update s.slots 0 .deleted 1 = .unassigned := by
    rw [Function.update_of_ne (by decide), hslots]
    rfl
  refine ⟨_, _, hdelete, rfl, hslot, ?_⟩
  intro hclean
  exact Slot.noConfusion (hslot.symm.trans (hclean.assigned 1 rfl))

end Start

end OsExercises.MapReduce
