import OsExercises.Uthreads.Sleep
import OsExercises.Uthreads.RoundRobin

/-!
# Which threads wake up

`sleep_check` compares a counter with zero after it decremented it. A thread that went to sleep for
zero or fewer quanta is therefore counted away from zero and never wakes up, and `uthread_sleep` lets
such numbers through. All others wake up: this is a property of every thread of the library, and the
first part of this file says how such properties go through an operation.
-/

namespace OsExercises.Uthreads

open ThreadLibrary

variable {lib lib' : ThreadLibrary} {op : Op} {outcome : Outcome} {p : Address} {t : Thread}
  {P Q : Address → Thread → Prop}

/-! ### Properties of all threads -/

def ForThreads (P : Address → Thread → Prop) (lib : ThreadLibrary) : Prop :=
  ∀ q t, lib.Member q t → P q t

/-- What a switch does to the threads it leaves and enters keeps the property. -/
structure SurvivesSwitch (P : Address → Thread → Prop) : Prop where
  running : ∀ q t, P q t → P q (t.setState .running)
  ready : ∀ q t, P q t → P q (t.setState .ready)
  saveEnv : ∀ q env t, P q t → P q (t.saveEnv env)
  increace : ∀ q t, P q t → P q t.increaceQuantumCounter

namespace ForThreads

theorem of_members (h : ForThreads P lib) (hmember : ∀ q t, lib'.Member q t → lib.Member q t) :
    ForThreads P lib' :=
  fun q t hq => h q t (hmember q t hq)

theorem modifyThread (h : ForThreads P lib) {q : Address} {change : Thread → Thread}
    (hchange : ∀ t, lib.Member q t → P q t → P q (change t)) :
    ForThreads P (lib.modifyThread q change) := by
  intro r u hr
  by_cases heq : r = q
  · subst heq
    obtain ⟨hall, hu⟩ := hr
    rw [modifyThread_threads, if_pos rfl, Option.map_eq_some_iff] at hu
    obtain ⟨t, ht, rfl⟩ := hu
    exact hchange t ⟨hall, ht⟩ (h r t ⟨hall, ht⟩)
  · obtain ⟨hall, hu⟩ := hr
    rw [modifyThread_threads, if_neg heq] at hu
    exact h r u ⟨hall, hu⟩

theorem begin (h : ForThreads P lib) (hP : SurvivesSwitch P) (next : Address) :
    ForThreads P (lib.begin next) := by
  apply ForThreads.modifyThread
  · exact h.of_members fun _ _ hq => hq
  · exact fun t _ ht => hP.increace next t ht

theorem switchTo (h : ForThreads P lib) (hP : SurvivesSwitch P) (env : Env) (next : Address) :
    ForThreads P (lib.switchTo env next) := by
  have hentered := h.modifyThread (q := next) fun t _ ht => hP.running next t ht
  have hleft := hentered.modifyThread (q := lib.runningThread)
    fun t _ ht => hP.saveEnv lib.runningThread env t ht
  exact hleft.begin hP next

theorem land (h : ForThreads P lib) (next : Address) : ForThreads P (lib.land next) := by
  rcases land_cases lib next with hland | hland
  · rw [hland]
    exact h
  · rw [hland]
    intro q t hq
    obtain ⟨hall, ht⟩ := hq
    change (lib.deleteObject lib.threadToDelete).threads q = some t at ht
    rw [Core.deleteObject_threads] at ht
    split at ht
    · cases ht
    · exact h q t ⟨hall, ht⟩

theorem countdown (h : ForThreads P lib) (hcountdown : ∀ q t, P q t → Q q t.countdown) :
    ForThreads Q (lib.countdown lib.allThreads) := by
  intro q t hq
  obtain ⟨u, hu, rfl⟩ := (Core.member_countdown_iff lib).mp hq
  exact hcountdown q u (h q u hu)

end ForThreads

/-- A tick may change the property into another one. -/
theorem forThreads_tick (hQ : SurvivesSwitch Q) (hcountdown : ∀ q t, P q t → Q q t.countdown)
    (hall : ForThreads P lib) (heffect : Effect lib .tick outcome lib') : ForThreads Q lib' := by
  cases heffect with
  | refused hrefused => cases hrefused
  | ticked _ _ hlib =>
      rw [hlib]
      apply ForThreads.land
      apply ForThreads.switchTo _ hQ
      apply ForThreads.modifyThread (hall.countdown hcountdown)
      exact fun t _ ht => hQ.ready lib.runningThread t ht

/-- An operation without a tick keeps the property when what it does to the thread it names does. -/
theorem forThreads_of_effect (h : Scheduled lib) (hP : SurvivesSwitch P)
    (hspawn : ∀ entryPoint index, op = .spawn entryPoint →
      P (lib.allocated + 1) (Thread.new index entryPoint))
    (hblock : ∀ q t, lib.Member q t → op = .block t.id → P q t → P q (t.setState .blocked))
    (hsleep : ∀ t numQuantums, lib.Member lib.runningThread t → t.id ≠ 0 → op = .sleep numQuantums →
      P lib.runningThread t → P lib.runningThread (t.fallAsleep numQuantums))
    (htick : op ≠ .tick) (hall : ForThreads P lib) (heffect : Effect lib op outcome lib') :
    ForThreads P lib' := by
  cases heffect with
  | spawned _ _ _ _ =>
      intro q t hq
      rcases h.core.member_addThread_iff.mp hq with ⟨rfl, rfl⟩ | hq
      · exact hspawn _ _ rfl
      · exact hall q t hq
  | terminated _ _ _ _ _ =>
      intro q t hq
      obtain ⟨hmem, ht⟩ := hq
      rw [Core.deleteObject_threads] at ht
      split at ht
      · cases ht
      · exact hall q t ⟨List.mem_of_mem_erase hmem, ht⟩
  | terminatedSelf _ _ _ _ _ hlib =>
      rw [hlib]
      apply ForThreads.land
      apply ForThreads.begin _ hP
      apply ForThreads.modifyThread
      · exact hall.of_members fun q t hq => ⟨List.mem_of_mem_erase hq.1, hq.2⟩
      · exact fun t _ ht => hP.running _ t ht
  | @blocked q u hq _ _ _ =>
      apply ForThreads.modifyThread hall
      intro t ht hPt
      exact hblock q t ht (by rw [ht.unique hq]) hPt
  | @blockedSelf u next rest left hu _ _ hlib =>
      rw [hlib]
      apply ForThreads.land
      apply ForThreads.switchTo _ hP
      apply ForThreads.modifyThread hall
      intro t ht hPt
      exact hblock _ t ht (by rw [ht.unique hu]) hPt
  | resumed _ _ =>
      apply ForThreads.modifyThread hall
      exact fun t _ ht => hP.ready _ t ht
  | slept hu hmain _ hlib =>
      rw [hlib]
      apply ForThreads.land
      apply ForThreads.switchTo _ hP
      apply ForThreads.modifyThread hall
      intro t ht hPt
      exact hsleep t _ ht (by rw [ht.unique hu]; exact hmain) rfl hPt
  | ticked _ _ _ => exact absurd rfl htick
  | refused _ | blockedAlready _ _ _ _ | resumedAlready _ _ | gotTid _ | gotTotalQuantums
  | gotQuantums _ => exact hall

/-! ### Threads with time left -/

/-- A sleeping thread has time left. -/
def Thread.Counted (t : Thread) : Prop := t.sleep = true → 1 ≤ t.timeToSleep

/-- The number of calls of `sleep_check` until the thread is awake. -/
def Thread.remainingTime (t : Thread) : Nat := if t.sleep then t.timeToSleep.toNat else 0

theorem Thread.Counted.countdown (hcounted : t.Counted) : t.countdown.Counted := by
  intro hsleep
  rw [Core.countdown_sleep, Bool.and_eq_true] at hsleep
  have htime := hcounted hsleep.1
  have hne : t.timeToSleep ≠ 1 := by simpa using hsleep.2
  rw [countdown_timeToSleep hsleep.1]
  omega

theorem remainingTime_countdown (hcounted : t.Counted) :
    t.countdown.remainingTime = t.remainingTime - 1 := by
  unfold Thread.remainingTime
  rw [Core.countdown_sleep]
  cases hsleep : t.sleep with
  | false => rfl
  | true =>
      have htime := hcounted hsleep
      rw [countdown_timeToSleep hsleep]
      by_cases hone : t.timeToSleep = 1
      · simp [hone]
      · simp only [hone, decide_false, Bool.not_false, Bool.and_true, if_true]
        omega

theorem Thread.Counted.sleep_iff (hcounted : t.Counted) : t.sleep = true ↔ 0 < t.remainingTime := by
  unfold Thread.remainingTime
  cases hsleep : t.sleep with
  | false => simp
  | true =>
      have htime := hcounted hsleep
      simp only [true_iff, if_true]
      omega

/-- `sleep_check` called a number of times in a row. -/
def sleepChecks : Nat → LibraryM Unit
  | 0 => pure ()
  | n + 1 => do
      sleepCheck
      sleepChecks n

theorem Scheduled.countdown (h : Scheduled lib) : Scheduled (lib.countdown lib.allThreads) := by
  refine ⟨core_countdown h, ?_⟩
  obtain ⟨rest, hqueue⟩ := List.head?_eq_some_iff.mp h.front
  change (lib.readyQueue ++ woken lib).head? = some lib.runningThread
  rw [hqueue]
  rfl

/-- A thread with time left is woken up by that many calls of `sleep_check`. -/
theorem exists_sleepChecks (h : Scheduled lib) (hp : lib.Member p t) (hcounted : t.Counted) :
    ∃ lib' t', sleepChecks t.remainingTime lib = some ((), lib') ∧ lib'.Member p t' ∧
      t'.sleep = false := by
  induction hn : t.remainingTime generalizing lib t with
  | zero =>
      refine ⟨lib, t, rfl, hp, ?_⟩
      rw [← Bool.not_eq_true, hcounted.sleep_iff]
      omega
  | succ n ih =>
      have hn' : t.countdown.remainingTime = n := by
        rw [remainingTime_countdown hcounted, hn]
        rfl
      obtain ⟨lib', t', hchecks, hp', hawake⟩ := ih h.countdown
        ((Core.member_countdown_iff lib).mpr ⟨t, hp, rfl⟩) hcounted.countdown hn'
      exact ⟨lib', t', run_bind_eq (run_sleepCheck h.core) hchecks, hp', hawake⟩

/-! ### A thread that is due -/

/-- The thread is not blocked, and has to wait for `k` ticks. -/
structure Thread.Due (id : Int32) (k : Nat) (t : Thread) : Prop where
  id_eq : t.id = id
  not_blocked : t.state ≠ .blocked
  counted : t.Counted
  time_eq : t.remainingTime = k

theorem survivesSwitch_due (p : Address) (id : Int32) (k : Nat) :
    SurvivesSwitch fun q t => q = p → t.Due id k where
  running _ _ hdue hq :=
    ⟨(hdue hq).id_eq, fun hstate => State.noConfusion hstate, (hdue hq).counted, (hdue hq).time_eq⟩
  ready _ _ hdue hq :=
    ⟨(hdue hq).id_eq, fun hstate => State.noConfusion hstate, (hdue hq).counted, (hdue hq).time_eq⟩
  saveEnv _ _ _ hdue hq :=
    ⟨(hdue hq).id_eq, (hdue hq).not_blocked, (hdue hq).counted, (hdue hq).time_eq⟩
  increace _ _ hdue hq :=
    ⟨(hdue hq).id_eq, (hdue hq).not_blocked, (hdue hq).counted, (hdue hq).time_eq⟩

theorem Thread.Due.countdown {id : Int32} {k : Nat} (hdue : t.Due id (k + 1)) :
    t.countdown.Due id k where
  id_eq := (Core.countdown_id t).trans hdue.id_eq
  not_blocked := (Core.countdown_state t).symm ▸ hdue.not_blocked
  counted := hdue.counted.countdown
  time_eq := by rw [remainingTime_countdown hdue.counted, hdue.time_eq, Nat.add_sub_cancel]

/-- The thread of the library at the address is due. -/
def DueAt (p : Address) (id : Int32) (k : Nat) (lib : ThreadLibrary) : Prop :=
  ∃ t, lib.Member p t ∧ t.Due id k

theorem DueAt.forThreads {id : Int32} {k : Nat} (hdue : DueAt p id k lib) :
    ForThreads (fun q t => q = p → t.Due id k) lib := by
  obtain ⟨t, hp, hthread⟩ := hdue
  rintro q u hq rfl
  rw [hq.unique hp]
  exact hthread

section Due

variable (h : Scheduled lib) {id : Int32} {k : Nat}
include h

/-- Only its termination takes a thread out of the library. -/
theorem mem_allThreads_of_effect (hp : lib.Member p t) (hspared : op ≠ .terminate t.id)
    (heffect : Effect lib op outcome lib') : p ∈ lib'.allThreads := by
  have hland : ∀ {left : ThreadLibrary} {next : Address}, p ∈ left.allThreads →
      p ∈ (left.land next).allThreads := by
    intro left next hall
    rcases land_cases left next with hland | hland
    · rw [hland]
      exact hall
    · rw [hland]
      exact hall
  have hother : ∀ {q u}, lib.Member q u → op = .terminate u.id → p ∈ lib.allThreads.erase q := by
    rintro q u hq rfl
    refine (h.core.all_nodup.mem_erase_iff).mpr ⟨?_, hp.1⟩
    rintro rfl
    exact hspared (by rw [hp.unique hq])
  cases heffect with
  | spawned _ _ _ _ => exact List.mem_append_left _ hp.1
  | terminated hq _ _ _ _ => exact hother hq rfl
  | terminatedSelf hq _ _ _ _ hlib =>
      apply hland
      rw [hlib]
      exact hother hq rfl
  | blockedSelf _ _ _ hlib =>
      apply hland
      rw [hlib]
      exact hp.1
  | slept _ _ _ hlib =>
      apply hland
      rw [hlib]
      exact hp.1
  | ticked _ _ hlib =>
      apply hland
      rw [hlib]
      exact hp.1
  | refused _ | blocked _ _ _ _ | blockedAlready _ _ _ _ | resumed _ _ | resumedAlready _ _
  | gotTid _ | gotTotalQuantums | gotQuantums _ => exact hp.1

/-- What is known of the thread after an operation that leaves it in the library. -/
theorem dueAt_of_forThreads (h' : Scheduled lib') (hp : lib.Member p t)
    (hspared : op ≠ .terminate t.id) (heffect : Effect lib op outcome lib')
    (hall : ForThreads (fun q t => q = p → t.Due id k) lib') : DueAt p id k lib' := by
  obtain ⟨t', hp'⟩ := h'.core.member_of_mem (mem_allThreads_of_effect h hp hspared heffect)
  exact ⟨t', hp', hall p t' hp' rfl⟩

/-- The step lemma without a tick: a thread that sleeps is not the running one, and nothing else
touches its sleep. -/
theorem dueAt_step (hdue : DueAt p id (k + 1) lib) (hspared : Spares id op) (htick : op ≠ .tick)
    (heffect : Effect lib op outcome lib') : DueAt p id (k + 1) lib' := by
  obtain ⟨t, hp, hthread⟩ := hdue
  have hid := hthread.id_eq
  have hasleep : t.sleep = true := by
    rw [hthread.counted.sleep_iff, hthread.time_eq]
    exact Nat.succ_pos k
  apply dueAt_of_forThreads h (h.of_effect heffect) hp (hid ▸ hspared.2) heffect
  apply forThreads_of_effect h (survivesSwitch_due p id (k + 1)) _ _ _ htick
    (DueAt.forThreads ⟨t, hp, hthread⟩) heffect
  · rintro entryPoint index - rfl
    exact absurd (h.core.allocated hp.2) (Nat.not_succ_le_self _)
  · rintro q u hq hblock hPu rfl
    exact absurd hblock (by rw [(hPu rfl).id_eq]; exact hspared.1)
  · rintro u numQuantums hu - - hPu hrunning
    exact absurd hrunning.symm (sleeping_ne_running h hp hasleep)

theorem dueAt_tick (hdue : DueAt p id (k + 1) lib) (heffect : Effect lib .tick outcome lib') :
    DueAt p id k lib' := by
  obtain ⟨t, hp, hthread⟩ := hdue
  apply dueAt_of_forThreads h (h.of_effect heffect) hp (by simp) heffect
  apply forThreads_tick (survivesSwitch_due p id k) _ (DueAt.forThreads ⟨t, hp, hthread⟩) heffect
  exact fun q u hPu hq => (hPu hq).countdown

theorem DueAt.queued (hdue : DueAt p id 0 lib) : p ∈ lib.readyQueue := by
  obtain ⟨t, hp, hthread⟩ := hdue
  refine (h.core.queued_iff hp).mpr ⟨hthread.not_blocked, ?_⟩
  rw [← Bool.not_eq_true, hthread.counted.sleep_iff, hthread.time_eq]
  omega

/-- The run lemma: every tick counts. -/
theorem dueAt_run {ops : List Op} (hdue : DueAt p id k lib) (hticks : ops.count .tick < k)
    (hrun : Run (PerformsSparing id) lib ops lib') :
    Scheduled lib' ∧ DueAt p id (k - ops.count .tick) lib' := by
  induction hrun with
  | start => exact ⟨h, hdue⟩
  | @next ops s s' op _ hlast ih =>
      rw [List.count_append] at hticks ⊢
      obtain ⟨hs, hwaits⟩ := ih (by omega)
      obtain ⟨⟨outcome, heffect⟩, hs'⟩ := hs.of_performs hlast.1
      refine ⟨hs', ?_⟩
      by_cases htick : op = .tick
      · subst htick
        apply dueAt_tick hs _ heffect
        have hone : List.count Op.tick [Op.tick] = 1 := rfl
        rw [hone] at hticks ⊢
        have hleft : k - (ops.count .tick + 1) + 1 = k - ops.count .tick := by omega
        rw [hleft]
        exact hwaits
      · have hnone : List.count Op.tick [op] = 0 := by simp [htick]
        rw [hnone] at hticks ⊢
        obtain ⟨left, hleft⟩ : ∃ left, k - ops.count .tick = left + 1 :=
          ⟨k - ops.count .tick - 1, by omega⟩
        rw [Nat.add_zero, hleft]
        rw [hleft] at hwaits
        exact dueAt_step hs hwaits hlast.2 htick heffect

end Due

/-- The last operation of a run is its `n`-th tick; a run to the tick before the first is empty. -/
def UpToTick : Nat → List Op → Prop
  | 0, ops => ops = []
  | n + 1, ops => ∃ before, ops = before ++ [.tick] ∧ before.count .tick = n

theorem queued_of_upToTick (h : Scheduled lib) {id : Int32} {k : Nat} {ops : List Op}
    (hdue : DueAt p id k lib) (hops : UpToTick k ops) (hrun : Run (PerformsSparing id) lib ops lib') :
    p ∈ lib'.readyQueue := by
  cases k with
  | zero =>
      rw [hops] at hrun
      obtain rfl := hrun.eq_of_nil
      exact hdue.queued h
  | succ k =>
      obtain ⟨before, rfl, hcount⟩ := hops
      obtain ⟨middle, hbefore, hlast⟩ := hrun.last_step
      obtain ⟨hmiddle, hwaits⟩ := dueAt_run h hdue (by omega) hbefore
      obtain ⟨⟨outcome, heffect⟩, h'⟩ := hmiddle.of_performs hlast.1
      have hone : k + 1 - before.count .tick = 0 + 1 := by omega
      rw [hone] at hwaits
      exact (dueAt_tick hmiddle hwaits heffect).queued h'

/-! ### Runs -/

/-- What is expected of a thread: a sleeping one has time left, so that as many calls of `sleep_check`
wake it up, and unless it is blocked it is in the queue after as many ticks. -/
structure NotLost (lib : ThreadLibrary) (p : Address) (t : Thread) : Prop where
  counted : t.sleep = true → 1 ≤ t.timeToSleep
  wakes : ∃ lib' t', sleepChecks t.remainingTime lib = some ((), lib') ∧ lib'.Member p t' ∧
    t'.sleep = false
  queued : t.state ≠ .blocked → ∃ lib',
    Run Performs lib (List.replicate t.remainingTime .tick) lib' ∧ p ∈ lib'.readyQueue
  queued_meanwhile : t.state ≠ .blocked → ∀ ops lib', UpToTick t.remainingTime ops →
    Run (PerformsSparing t.id) lib ops lib' → p ∈ lib'.readyQueue

def NoSleeperLost (lib : ThreadLibrary) : Prop := ForThreads (NotLost lib) lib

/-- Every accepted call of `uthread_sleep` has a positive number of quanta. -/
def SleepsPositively (lib : ThreadLibrary) (op : Op) (_ : ThreadLibrary) : Prop :=
  ∀ t numQuantums, lib.Member lib.runningThread t → t.id ≠ 0 → op = .sleep numQuantums →
    1 ≤ numQuantums

theorem exists_ticks (h : Scheduled lib) (n : Nat) :
    ∃ lib', Run Performs lib (List.replicate n .tick) lib' := by
  induction n with
  | zero => exact ⟨lib, .start⟩
  | succ n ih =>
      obtain ⟨middle, hrun⟩ := ih
      have hmiddle : Scheduled middle :=
        hrun.invariant h fun _ _ _ hs hstep => (hs.of_performs hstep).2
      obtain ⟨outcome, lib', hperform, -⟩ := perform_effect hmiddle
        (show Op.tick ≠ .terminate 0 by simp)
      rw [List.replicate_succ']
      exact ⟨lib', hrun.next ⟨by simp, outcome, hperform⟩⟩

theorem upToTick_replicate (n : Nat) : UpToTick n (List.replicate n .tick) := by
  cases n with
  | zero => rfl
  | succ n => exact ⟨List.replicate n .tick, List.replicate_succ', List.count_replicate_self⟩

theorem notLost_of_counted (h : Scheduled lib) (hp : lib.Member p t) (hcounted : t.Counted) :
    NotLost lib p t where
  counted := hcounted
  wakes := exists_sleepChecks h hp hcounted
  queued hstate := by
    obtain ⟨lib', hrun⟩ := exists_ticks h t.remainingTime
    refine ⟨lib', hrun, ?_⟩
    apply queued_of_upToTick h ⟨t, hp, rfl, hstate, hcounted, rfl⟩ (upToTick_replicate _)
    apply hrun.meeting_of_forall
    intro op hop s s'
    rw [List.eq_of_mem_replicate hop]
    exact ⟨by simp, by simp⟩
  queued_meanwhile hstate ops lib' hops hrun :=
    queued_of_upToTick h ⟨t, hp, rfl, hstate, hcounted, rfl⟩ hops hrun

/-- In order, and every sleeping thread has time left. -/
structure AllCounted (lib : ThreadLibrary) : Prop where
  scheduled : Scheduled lib
  counted : ForThreads (fun _ t => t.Counted) lib

theorem AllCounted.noSleeperLost (h : AllCounted lib) : NoSleeperLost lib :=
  fun p t hp => notLost_of_counted h.scheduled hp (h.counted p t hp)

theorem allCounted_initialized : AllCounted .initialized := by
  refine ⟨scheduled_initialized, ?_⟩
  intro p t hp hsleep
  rw [(member_initialized hp).2] at hsleep
  cases hsleep

theorem survivesSwitch_counted : SurvivesSwitch fun _ t => t.Counted where
  running _ _ hcounted := hcounted
  ready _ _ hcounted := hcounted
  saveEnv _ _ _ hcounted := hcounted
  increace _ _ hcounted := hcounted

theorem AllCounted.step (h : AllCounted lib) (hpositive : SleepsPositively lib op lib')
    (heffect : Effect lib op outcome lib') : AllCounted lib' := by
  refine ⟨h.scheduled.of_effect heffect, ?_⟩
  by_cases htick : op = .tick
  · subst htick
    exact forThreads_tick survivesSwitch_counted (fun _ _ hcounted => hcounted.countdown) h.counted
      heffect
  · apply forThreads_of_effect h.scheduled survivesSwitch_counted _ _ _ htick h.counted heffect
    · rintro entryPoint index - hsleep
      cases hsleep
    · exact fun q t _ _ hcounted => hcounted
    · intro t numQuantums ht hmain hop _ _
      exact Int32.le_iff_toInt_le.mp (hpositive t numQuantums ht hmain hop)

/-- The other direction: the thread that just went to sleep has no time left. -/
theorem AllCounted.sleepsPositively (h : AllCounted lib) (heffect : Effect lib op outcome lib')
    (hall : NoSleeperLost lib') : SleepsPositively lib op lib' := by
  rintro t numQuantums ht hmain rfl
  obtain ⟨t', hp', hasleep, htime⟩ := member_of_sleep h.scheduled ht hmain heffect
  have hcounted := (hall _ t' hp').counted hasleep
  exact Int32.le_iff_toInt_le.mpr (htime ▸ hcounted)

/-- No sleeper is lost in a run exactly when every accepted sleep of the run is positive. -/
theorem noSleeperLost_iff {start : ThreadLibrary} (hinit : Initialized start) (ops : List Op)
    (lib : ThreadLibrary) :
    NoSleeperLost start ∧
    (Run (Meeting Performs fun _ _ lib' => NoSleeperLost lib') start ops lib ↔
      Run (Meeting Performs SleepsPositively) start ops lib) := by
  rw [initialized_iff.mp hinit]
  refine ⟨allCounted_initialized.noSleeperLost, ?_⟩
  apply Run.meeting_iff AllCounted allCounted_initialized
  · intro s op s' hs hstep
    obtain ⟨⟨outcome, heffect⟩, -⟩ := hs.scheduled.of_performs hstep
    exact ⟨hs.sleepsPositively heffect, fun hpositive => (hs.step hpositive heffect).noSleeperLost⟩
  · intro s op s' hs hstep hlost
    obtain ⟨⟨outcome, heffect⟩, -⟩ := hs.scheduled.of_performs hstep
    exact hs.step (hs.sleepsPositively heffect hlost) heffect

theorem noSleeperLost_sleep_one : ∃ lib, NoSleeperLost .initialized ∧
    Run (Meeting Performs fun _ _ lib' => NoSleeperLost lib') .initialized
      [.spawn 7, .tick, .sleep 1, .tick] lib := by
  have hperform : (performAll [.spawn 7, .tick, .sleep 1, .tick] .initialized).isSome = true := by
    decide +kernel
  obtain ⟨lib, hlib⟩ := Option.isSome_iff_exists.mp hperform
  have hrun := run_performAll .start hlib
  obtain ⟨hstart, hiff⟩ := noSleeperLost_iff (initialized_iff.mpr rfl)
    [.spawn 7, .tick, .sleep 1, .tick] lib
  refine ⟨lib, hstart, hiff.mpr ?_⟩
  apply hrun.meeting_of_forall
  rintro op hop s s' t numQuantums - - rfl
  have hone : numQuantums = 1 := by simpa using hop
  rw [hone]
  decide

/-- Counterexample: thread 1 goes to sleep for zero quanta. -/
theorem exists_lost_sleeper : ∃ lib t, Reachable lib ∧ lib.Member 2 t ∧ t.sleep = true ∧
    t.timeToSleep = 0 ∧ ¬ NoSleeperLost lib := by
  have hslept : (performAll [.spawn 7, .tick, .sleep 0] .initialized).any (fun lib =>
      lib.allThreads.contains 2 &&
      (lib.threads 2).any fun t => t.sleep && t.timeToSleep == 0) = true := by
    decide +kernel
  obtain ⟨lib, hperform, hlib⟩ := (Option.any_eq_true _ _).mp hslept
  simp only [Bool.and_eq_true, List.contains_eq_mem, decide_eq_true_eq, beq_iff_eq,
    Option.any_eq_true] at hlib
  obtain ⟨hall, t, ht, hsleep, htime⟩ := hlib
  refine ⟨lib, t, reachable_performAll hperform, ⟨hall, ht⟩, hsleep, htime, ?_⟩
  intro hnone
  have hcounted := (hnone 2 t ⟨hall, ht⟩).counted hsleep
  rw [htime] at hcounted
  omega

end OsExercises.Uthreads
