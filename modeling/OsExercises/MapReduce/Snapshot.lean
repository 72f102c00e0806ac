import OsExercises.MapReduce.Progress

/-!
# The state of a job, as its callers see it

`getJobState` loads the word of the job once, and puts the percentage and then the stage into the
`State` of the job before it copies `State` to the caller. All callers of a job share `State`: a call
that stores between another call's store and its copy gives the other call a part of its own answer.

Any number of calls may be on their way while the workers go on. `held` lists the values the word had
during a call; it is not in the source.
-/

namespace OsExercises.MapReduce

open Function (update)

structure JobState where
  stage : Stage
  percentage : Option Rat
deriving DecidableEq

/-- `static_cast<stage_t>`, for the two bits of a word. -/
def Stage.ofBits : Nat → Stage
  | 1 => .map
  | 2 => .shuffle
  | 3 => .reduce
  | _ => .undefined

/-- What a call should answer when it finds the word `x`. -/
def decodeWord (x : Nat) : JobState where
  stage := Stage.ofBits (getStageBits x)
  percentage := percentage x

inductive CallPoint where
  | idle
  | called
  | loaded (x : Nat)
  | percentageStored (x : Nat)
  | stageStored (x : Nat)
  | returned (state : JobState)
deriving DecidableEq

/-- The call stands between its store of the percentage and its copy. -/
def CallPoint.trustsPercentage : CallPoint → Bool
  | .percentageStored _ => true
  | .stageStored _ => true
  | _ => false

/-- The call stands between its store of the stage and its copy. -/
def CallPoint.trustsStage : CallPoint → Bool
  | .stageStored _ => true
  | _ => false

def CallPoint.underWay : CallPoint → Bool
  | .idle => false
  | .returned _ => false
  | _ => true

structure StateCall where
  point : CallPoint
  held : List Nat

/-- The word has a new value. -/
def StateCall.observe (x : Nat) (call : StateCall) : StateCall :=
  if call.point.underWay then { call with held := call.held ++ [x] } else call

/-- A job with its `State` and the calls of `getJobState`. -/
structure Watched (ι : Type) (n : Nat) (InputPair K V OutputPair : Type) where
  job : Job n InputPair K V OutputPair
  state : JobState
  calls : ι → StateCall

inductive WatchedEvent (ι : Type) (n : Nat) where
  | worker (event : JobEvent n)
  | call (c : ι)
  | load (c : ι)
  | storePercentage (c : ι)
  | storeStage (c : ι)
  | copy (c : ι)

namespace Watched

variable {ι : Type} [DecidableEq ι] {n : Nat} {InputPair K V OutputPair : Type}

/-- `create_job` makes `State` with `UNDEFINED_STAGE` and 0. -/
def create (ι : Type) (n : Nat) (K V : Type) (inputVec : List InputPair)
    (outputVec : List OutputPair) : Watched ι n InputPair K V OutputPair where
  job := .create n K V inputVec outputVec
  state := ⟨.undefined, some 0⟩
  calls := fun _ => ⟨.idle, []⟩

def goTo (s : Watched ι n InputPair K V OutputPair) (c : ι) (point : CallPoint) :
    Watched ι n InputPair K V OutputPair :=
  { s with calls := update s.calls c { s.calls c with point := point } }

inductive Step (client : Client InputPair K V OutputPair) (inputVec : List InputPair) :
    Watched ι n InputPair K V OutputPair → WatchedEvent ι n →
    Watched ι n InputPair K V OutputPair → Prop where
  | worker {s : Watched ι n InputPair K V OutputPair} {event : JobEvent n}
      {job : Job n InputPair K V OutputPair} :
      Job.Step client inputVec s.job event job →
      Step client inputVec s (.worker event)
        { s with job := job, calls := fun c => (s.calls c).observe job.atomicState }
  | call {s : Watched ι n InputPair K V OutputPair} {c : ι} :
      (s.calls c).point = .idle →
      Step client inputVec s (.call c)
        { s with calls := update s.calls c ⟨.called, [s.job.atomicState]⟩ }
  | load {s : Watched ι n InputPair K V OutputPair} {c : ι} :
      (s.calls c).point = .called →
      Step client inputVec s (.load c) (s.goTo c (.loaded s.job.atomicState))
  | storePercentage {s : Watched ι n InputPair K V OutputPair} {c : ι} {x : Nat} :
      (s.calls c).point = .loaded x →
      Step client inputVec s (.storePercentage c)
        { s.goTo c (.percentageStored x) with
          state := { s.state with percentage := percentage x } }
  | storeStage {s : Watched ι n InputPair K V OutputPair} {c : ι} {x : Nat} :
      (s.calls c).point = .percentageStored x →
      Step client inputVec s (.storeStage c)
        { s.goTo c (.stageStored x) with
          state := { s.state with stage := Stage.ofBits (getStageBits x) } }
  | copy {s : Watched ι n InputPair K V OutputPair} {c : ι} {x : Nat} :
      (s.calls c).point = .stageStored x →
      Step client inputVec s (.copy c) (s.goTo c (.returned s.state))

/-- Every answer decodes one value that the word had during the call. -/
def Consistent (s : Watched ι n InputPair K V OutputPair) : Prop :=
  ∀ c state, (s.calls c).point = .returned state → ∃ x ∈ (s.calls c).held, state = decodeWord x

/-- No store changes a part of `State` that another call has stored and not copied yet. -/
def Undisturbed (s : Watched ι n InputPair K V OutputPair) :
    WatchedEvent ι n → Watched ι n InputPair K V OutputPair → Prop
  | .storePercentage _, s' =>
      s'.state = s.state ∨ ∀ c, (s.calls c).point.trustsPercentage = false
  | .storeStage _, s' => s'.state = s.state ∨ ∀ c, (s.calls c).point.trustsStage = false
  | _, _ => True

/-! ### The invariant of a call -/

/-- What a call has loaded was held by the word, and what it has stored is in `State`. -/
def CallInv (state : JobState) (call : StateCall) : Prop :=
  match call.point with
  | .idle => True
  | .called => True
  | .loaded x => x ∈ call.held
  | .percentageStored x => x ∈ call.held ∧ state.percentage = percentage x
  | .stageStored x => x ∈ call.held ∧ state = decodeWord x
  | .returned answer => ∃ x ∈ call.held, answer = decodeWord x

namespace CallInv

variable {state state' : JobState} {call : StateCall}

theorem observe (h : CallInv state call) (x : Nat) : CallInv state (call.observe x) := by
  obtain ⟨point, held⟩ := call
  cases point with
  | idle => exact h
  | called => exact h
  | loaded y => exact List.mem_append_left [x] h
  | percentageStored y => exact ⟨List.mem_append_left [x] h.1, h.2⟩
  | stageStored y => exact ⟨List.mem_append_left [x] h.1, h.2⟩
  | returned answer => exact h

/-- A new percentage does not matter to a call that has not stored its own. -/
theorem of_not_trustsPercentage (h : CallInv state call)
    (htrusts : call.point.trustsPercentage = false) : CallInv state' call := by
  obtain ⟨point, held⟩ := call
  cases point with
  | percentageStored y => cases htrusts
  | stageStored y => cases htrusts
  | _ => exact h

/-- A new stage does not matter to a call that has not stored its own. -/
theorem of_not_trustsStage (h : CallInv state call) (htrusts : call.point.trustsStage = false)
    (hpercentage : state'.percentage = state.percentage) : CallInv state' call := by
  obtain ⟨point, held⟩ := call
  cases point with
  | percentageStored y => exact ⟨h.1, hpercentage.trans h.2⟩
  | stageStored y => cases htrusts
  | _ => exact h

end CallInv

section Invariant

variable {client : Client InputPair K V OutputPair} {inputVec : List InputPair}
  {outputVec : List OutputPair} {s s' : Watched ι n InputPair K V OutputPair}
  {event : WatchedEvent ι n}

/-- Every call is in order, and has seen the value the word has now. -/
structure Inv (s : Watched ι n InputPair K V OutputPair) : Prop where
  call : ∀ c, CallInv s.state (s.calls c)
  seen : ∀ c, (s.calls c).point.underWay = true → s.job.atomicState ∈ (s.calls c).held

omit [DecidableEq ι] in
theorem Inv.consistent (h : s.Inv) : s.Consistent := by
  intro c state hreturned
  have hcall := h.call c
  rw [CallInv, hreturned] at hcall
  exact hcall

omit [DecidableEq ι] in
theorem inv_create : (create ι n K V inputVec outputVec).Inv where
  call _ := trivial
  seen _ hway := by cases hway

/-- A call moves on, and the others are as they were. -/
theorem Inv.goTo (h : s.Inv) {c : ι} {point : CallPoint} {state : JobState}
    (hway : (s.calls c).point.underWay = true)
    (hcall : CallInv state { s.calls c with point := point })
    (hothers : ∀ c', c' ≠ c → CallInv state (s.calls c')) :
    Inv { s.goTo c point with state := state } where
  call c' := by
    change CallInv state (update s.calls c _ c')
    by_cases heq : c' = c
    · rw [heq, Function.update_self]
      exact hcall
    · rw [Function.update_of_ne heq]
      exact hothers c' heq
  seen c' := by
    change (update s.calls c _ c').point.underWay = true → s.job.atomicState ∈
      (update s.calls c _ c').held
    by_cases heq : c' = c
    · rw [heq, Function.update_self]
      exact fun _ => h.seen c hway
    · rw [Function.update_of_ne heq]
      exact h.seen c'

theorem seen_observe {call : StateCall} {x : Nat}
    (hway : (call.observe x).point.underWay = true) : x ∈ (call.observe x).held := by
  unfold StateCall.observe at hway ⊢
  split at hway
  · rw [if_pos ‹_›]
    exact List.mem_append_right _ List.mem_cons_self
  · exact absurd hway ‹_›

theorem Inv.step (h : s.Inv) (hstep : Step client inputVec s event s')
    (hundisturbed : s.Undisturbed event s') : s'.Inv := by
  cases hstep with
  | @worker event job _ =>
      exact ⟨fun c => (h.call c).observe job.atomicState, fun c => seen_observe⟩
  | @call c _ =>
      constructor
      · intro c'
        change CallInv s.state (update s.calls c _ c')
        by_cases heq : c' = c
        · rw [heq, Function.update_self]
          trivial
        · rw [Function.update_of_ne heq]
          exact h.call c'
      · intro c'
        change (update s.calls c _ c').point.underWay = true →
          s.job.atomicState ∈ (update s.calls c _ c').held
        by_cases heq : c' = c
        · rw [heq, Function.update_self]
          exact fun _ => List.mem_cons_self
        · rw [Function.update_of_ne heq]
          exact h.seen c'
  | @load c hpoint =>
      have hway : (s.calls c).point.underWay = true := by rw [hpoint]; rfl
      exact h.goTo hway (h.seen c hway) fun c' _ => h.call c'
  | @storePercentage c x hpoint =>
      have hcall := h.call c
      rw [CallInv, hpoint] at hcall
      refine h.goTo (by rw [hpoint]; rfl) ⟨hcall, rfl⟩ ?_
      intro c' _
      rcases hundisturbed with hsame | hfree
      · exact hsame ▸ h.call c'
      · exact (h.call c').of_not_trustsPercentage (hfree c')
  | @storeStage c x hpoint =>
      have hcall := h.call c
      rw [CallInv, hpoint] at hcall
      obtain ⟨hheld, hpercentage⟩ := hcall
      refine h.goTo (by rw [hpoint]; rfl) ⟨hheld, congrArg (JobState.mk _) hpercentage⟩ ?_
      intro c' _
      rcases hundisturbed with hsame | hfree
      · exact hsame ▸ h.call c'
      · exact (h.call c').of_not_trustsStage (hfree c') rfl
  | @copy c x hpoint =>
      have hcall := h.call c
      rw [CallInv, hpoint] at hcall
      exact h.goTo (by rw [hpoint]; rfl) ⟨x, hcall.1, hcall.2⟩ fun c' _ => h.call c'

/-- In a run in which no store disturbs another call, every answer is a snapshot. -/
theorem snapshots_consistent (client : Client InputPair K V OutputPair)
    {inputVec : List InputPair} {outputVec : List OutputPair} {events : List (WatchedEvent ι n)}
    {s : Watched ι n InputPair K V OutputPair}
    (hrun : Run (Meeting (Step client inputVec) Undisturbed)
      (create ι n K V inputVec outputVec) events s) : s.Consistent := by
  have h : s.Inv :=
    hrun.invariant inv_create fun _ _ _ hinv hstep => hinv.step hstep.1 hstep.2
  exact h.consistent

end Invariant

/-- One worker maps one pair, and two calls are on their way at once behind it. The second one stores
what the first one has stored. -/
theorem exists_snapshots : ∃ s, Run (Meeting (Step echoClient [7]) Undisturbed)
    (create Bool 1 Nat Nat [7] [])
    [.worker (.own 0), .worker (.own 0), .worker (.own 0), .worker (.own 0), .call true, .call false,
      .load true, .load false, .storePercentage true, .storeStage true, .storePercentage false,
      .storeStage false, .copy true, .copy false] s ∧
    (s.calls true).point = .returned ⟨.map, some 100⟩ ∧
    (s.calls false).point = .returned ⟨.map, some 100⟩ := by
  have hstart : Run (Meeting (Step echoClient [7]) Undisturbed) (create Bool 1 Nat Nat [7] []) [] _ :=
    .start
  have hmapLoad := hstart.next ⟨.worker (.mapLoad (i := 0) rfl), trivial⟩
  have hmapNext := hmapLoad.next ⟨.worker (.mapNext (i := 0) rfl), trivial⟩
  have hmap := hmapNext.next ⟨.worker (.map (i := 0) rfl rfl rfl), trivial⟩
  have hmapCount := hmap.next ⟨.worker (.mapCount (i := 0) rfl), trivial⟩
  have hcall := hmapCount.next ⟨.call (c := true) rfl, trivial⟩
  have hcall' := hcall.next ⟨.call (c := false) rfl, trivial⟩
  have hload := hcall'.next ⟨.load (c := true) rfl, trivial⟩
  have hload' := hload.next ⟨.load (c := false) rfl, trivial⟩
  have hpercentage :=
    hload'.next ⟨.storePercentage (c := true) rfl, Or.inr fun c => by cases c <;> rfl⟩
  have hstage := hpercentage.next ⟨.storeStage (c := true) rfl, Or.inr fun c => by cases c <;> rfl⟩
  have hpercentage' := hstage.next ⟨.storePercentage (c := false) rfl, Or.inl rfl⟩
  have hstage' := hpercentage'.next ⟨.storeStage (c := false) rfl, Or.inl rfl⟩
  have hcopy := hstage'.next ⟨.copy (c := true) rfl, trivial⟩
  have hcopy' := hcopy.next ⟨.copy (c := false) rfl, trivial⟩
  exact ⟨_, hcopy', by decide +kernel, by decide +kernel⟩

theorem snapshots_consistent_overlapping : ∃ (events : List (WatchedEvent Bool 1))
    (s : Watched Bool 1 Nat Nat Nat Nat),
    Run (Meeting (Step echoClient [7]) Undisturbed) (create Bool 1 Nat Nat [7] []) events s ∧
    (s.calls true).point = .returned ⟨.map, some 100⟩ ∧
    (s.calls false).point = .returned ⟨.map, some 100⟩ ∧ s.Consistent := by
  obtain ⟨s, hrun, htrue, hfalse⟩ := exists_snapshots
  exact ⟨_, s, hrun, htrue, hfalse, snapshots_consistent echoClient hrun⟩

/-- Counterexample: a call that loaded the word before the pair was mapped stores its percentage
between the stores and the copy of a call that was made later. The later call answers 0 percent, and
the word said 100 all the time. -/
theorem exists_mixed_snapshot : ∃ events s,
    Run (Step echoClient [7]) (create Bool 1 Nat Nat [7] []) events s ∧
    (s.calls true).point = .returned ⟨.map, some 0⟩ ∧
    (∀ x ∈ (s.calls true).held, decodeWord x = ⟨.map, some 100⟩) ∧ ¬ s.Consistent := by
  have hstart : Run (Step echoClient [7]) (create Bool 1 Nat Nat [7] []) [] _ := .start
  have hcallEarly := hstart.next (.call (c := false) rfl)
  have hloadEarly := hcallEarly.next (.load (c := false) rfl)
  have hmapLoad := hloadEarly.next (.worker (.mapLoad (i := 0) rfl))
  have hmapNext := hmapLoad.next (.worker (.mapNext (i := 0) rfl))
  have hmap := hmapNext.next (.worker (.map (i := 0) rfl rfl rfl))
  have hmapCount := hmap.next (.worker (.mapCount (i := 0) rfl))
  have hcall := hmapCount.next (.call (c := true) rfl)
  have hload := hcall.next (.load (c := true) rfl)
  have hpercentage := hload.next (.storePercentage (c := true) rfl)
  have hstage := hpercentage.next (.storeStage (c := true) rfl)
  have hpercentageEarly := hstage.next (.storePercentage (c := false) rfl)
  have hcopy := hpercentageEarly.next (.copy (c := true) rfl)
  refine ⟨_, _, hcopy, ?_⟩
  generalize hs : Watched.goTo _ true _ = s
  have hreturned : (s.calls true).point = .returned ⟨.map, some 0⟩ := by
    rw [← hs]
    decide +kernel
  have hheld : ∀ x ∈ (s.calls true).held, decodeWord x = ⟨.map, some 100⟩ := by
    rw [← hs]
    decide +kernel
  refine ⟨hreturned, hheld, ?_⟩
  intro hconsistent
  obtain ⟨x, hx, hanswer⟩ := hconsistent true _ hreturned
  rw [hheld x hx] at hanswer
  exact absurd hanswer (by decide +kernel)

end Watched

end OsExercises.MapReduce
