import OsExercises.Uthreads.Calls

/-!
# The scheduler stays in order

One step: every effect of a call keeps `Scheduled`. A run: every reachable state is in order, so the
calls go through and the handlers find the queue they need.
-/

namespace OsExercises.Uthreads

open ThreadLibrary

variable {lib lib' : ThreadLibrary} {op : Op} {outcome : Outcome}

section Step

variable (h : Scheduled lib)
include h

theorem Scheduled.addThread {index : Nat} {entryPoint : Address} (hindex : index < maxThreadNum)
    (havailable : lib.availableId[index]? = some false) :
    Scheduled (lib.addThread index entryPoint) := by
  have hqueue := List.mem_of_mem_head? h.front
  constructor
  · apply h.core.addThread _ hindex havailable
    intro p hp
    rw [← Option.some.inj hp]
    exact h.core.queue_subset hqueue
  · obtain ⟨rest, hrest⟩ := List.head?_eq_some_iff.mp h.front
    simp only [ThreadLibrary.addThread, hrest]
    rfl

theorem Scheduled.erase_front {p : Address} (hne : p ≠ lib.runningThread) :
    (lib.readyQueue.erase p).head? = some lib.runningThread := by
  obtain ⟨rest, hrest⟩ := List.head?_eq_some_iff.mp h.front
  rw [hrest, List.erase_cons_tail (by simpa using hne.symm)]
  rfl

theorem Scheduled.terminated {p : Address} {t : Thread} {index : Nat} (hp : lib.Member p t)
    (hid : t.id = asInt index) (hindex : index < maxThreadNum) (hzero : t.id ≠ 0)
    (hne : p ≠ lib.runningThread) : Scheduled ((lib.removeThread p index).deleteObject p) := by
  have hcore : Core (lib.removeThread p index) (some lib.runningThread) :=
    h.core.removeThread hp hindex hid hzero fun _ _ => Iff.rfl
  constructor
  · apply hcore.deleteObject h.core.all_nodup.not_mem_erase
    intro hd heq
    exact (h.core.pending hd).1 (heq ▸ hp.1)
  · exact h.erase_front hne

/-- The running thread is gone, and its object is pending. -/
theorem Scheduled.core_terminated {t : Thread} {index : Nat}
    (ht : lib.Member lib.runningThread t) (hid : t.id = asInt index) (hindex : index < maxThreadNum)
    (hzero : t.id ≠ 0) :
    Core ((lib.removeThread lib.runningThread index).setPending lib.runningThread) none := by
  have hcore : Core (lib.removeThread lib.runningThread index) none := by
    apply h.core.removeThread ht hindex hid hzero
    intro q hne
    exact iff_of_false (by simp) fun heq => hne (Option.some.inj heq).symm
  exact hcore.setPending h.core.all_nodup.not_mem_erase ⟨t, ht.2⟩

theorem Scheduled.terminatedSelf {t : Thread} {index : Nat} {next : Address} {rest : List Address}
    (ht : lib.Member lib.runningThread t) (hid : t.id = asInt index) (hindex : index < maxThreadNum)
    (hzero : t.id ≠ 0) (hqueue : lib.readyQueue = lib.runningThread :: next :: rest) :
    Scheduled (((((lib.removeThread lib.runningThread index).setPending
      lib.runningThread).modifyThread next (Thread.setState .running)).begin next).land next) := by
  apply Scheduled.of_begin (h.core_terminated ht hid hindex hzero)
  change (lib.readyQueue.erase lib.runningThread).head? = some next
  rw [hqueue, List.erase_cons_head]
  rfl

theorem Scheduled.blocked {p : Address} {t : Thread} (hp : lib.Member p t) (hzero : t.id ≠ 0)
    (hne : p ≠ lib.runningThread) :
    Scheduled ((lib.modifyThread p (Thread.setState .blocked)).setQueue
      (lib.readyQueue.erase p)) := by
  have hnot : ¬ (t.setState .blocked).Runnable := fun hrunnable => hrunnable.1 rfl
  constructor
  · refine h.core.update hp rfl (h.core.queue_nodup.erase p) ?_ ?_ ?_ (fun _ _ => Iff.rfl) ?_
    · intro q hq
      rw [h.core.queue_nodup.mem_erase_iff]
      exact and_iff_right hq
    · exact iff_of_false h.core.queue_nodup.not_mem_erase hnot
    · exact iff_of_false (by simp [Thread.setState]) fun heq => hne (Option.some.inj heq).symm
    · exact fun hmain => absurd hmain hzero
  · exact h.erase_front hne

theorem Scheduled.resumed {p : Address} {t : Thread} (hp : lib.Member p t)
    (hblocked : t.state = .blocked) :
    Scheduled ((lib.modifyThread p (Thread.setState .ready)).setQueue
      (if t.sleep then lib.readyQueue else lib.readyQueue ++ [p])) := by
  have hout : p ∉ lib.readyQueue := by
    rw [h.core.queued_iff hp]
    exact fun hrunnable => hrunnable.1 hblocked
  have hne : some lib.runningThread ≠ some p := by
    intro heq
    rw [(h.core.running_iff hp).mpr heq] at hblocked
    cases hblocked
  obtain ⟨rest, hrest⟩ := List.head?_eq_some_iff.mp h.front
  constructor
  · refine h.core.update hp rfl ?_ ?_ ?_ ?_ (fun _ _ => Iff.rfl) ?_
    · split
      · exact h.core.queue_nodup
      · exact h.core.queue_nodup.append (List.nodup_singleton p) (by simpa using hout)
    · intro q hq
      split
      · rfl
      · simp [hq]
    · cases hsleep : t.sleep <;> simp [Thread.Runnable, Thread.setState, hsleep, hout]
    · exact iff_of_false (by simp [Thread.setState]) hne
    · intro hmain
      exact absurd hblocked (h.core.main_runnable hp hmain).1
  · change (if t.sleep then lib.readyQueue else lib.readyQueue ++ [p]).head? = _
    split
    · exact h.front
    · rw [hrest]
      rfl

theorem Scheduled.core_left {t : Thread} {change : Thread → Thread} {next : Address}
    {rest : List Address} (ht : lib.Member lib.runningThread t) (hid : (change t).id = t.id)
    (hzero : t.id ≠ 0) (hqueue : lib.readyQueue = lib.runningThread :: next :: rest)
    (hstate : (change t).state ≠ .running) (hnot : ¬ (change t).Runnable) :
    Core ((lib.modifyThread lib.runningThread change).setQueue (next :: rest)) none := by
  have hnodup := hqueue ▸ h.core.queue_nodup
  refine h.core.leave ht hid (List.nodup_cons.mp hnodup).2 ?_ ?_ hstate ?_
  · intro q hq
    rw [hqueue]
    exact (List.mem_cons.trans (or_iff_right hq)).symm
  · exact iff_of_false (List.nodup_cons.mp hnodup).1 hnot
  · exact fun hmain => absurd hmain hzero

/-- The running thread blocks itself or goes to sleep. -/
theorem Scheduled.left {t : Thread} {change : Thread → Thread} {next : Address}
    {rest : List Address} (ht : lib.Member lib.runningThread t) (hid : (change t).id = t.id)
    (hzero : t.id ≠ 0) (hqueue : lib.readyQueue = lib.runningThread :: next :: rest)
    (hstate : (change t).state ≠ .running) (hnot : ¬ (change t).Runnable) (env : Env) :
    Scheduled ((((lib.modifyThread lib.runningThread change).setQueue
      (next :: rest)).switchTo env next).land next) :=
  Scheduled.of_switchTo (h.core_left ht hid hzero hqueue hstate hnot) rfl env
    ⟨_, SameThreads.member_modify ht change⟩

/-- At a tick the running thread is found among the threads that were counted down. -/
theorem Scheduled.running_countdown {next : Address} {rest rest' : List Address}
    (hqueue : lib.readyQueue = lib.runningThread :: rest)
    (hrotated : rest ++ woken lib ++ [lib.runningThread] = next :: rest') :
    ∃ t, (lib.countdown lib.allThreads).Member lib.runningThread t ∧ t.Runnable := by
  have hrunning : lib.runningThread ∈ next :: rest' := by
    rw [← hrotated]
    simp
  have hqueued := (rotated_perm hqueue hrotated).subset hrunning
  obtain ⟨t, hmember⟩ := (core_countdown h).member_of_queue hqueued
  exact ⟨t, hmember, ((core_countdown h).queued_iff hmember).mp hqueued⟩

theorem Scheduled.core_ticked {next : Address} {rest rest' : List Address}
    (hqueue : lib.readyQueue = lib.runningThread :: rest)
    (hrotated : rest ++ woken lib ++ [lib.runningThread] = next :: rest') :
    Core (((lib.countdown lib.allThreads).modifyThread lib.runningThread
      (Thread.setState .ready)).setQueue (next :: rest')) none := by
  have hcore := core_countdown h
  have hperm := rotated_perm hqueue hrotated
  have hrunning : lib.runningThread ∈ next :: rest' := by
    rw [← hrotated]
    simp
  obtain ⟨t, hmember, hrunnable⟩ := h.running_countdown hqueue hrotated
  have hready : (t.setState .ready).Runnable := ⟨by simp [Thread.setState], hrunnable.2⟩
  refine hcore.leave hmember rfl (hperm.nodup_iff.mpr hcore.queue_nodup) ?_ ?_ ?_ ?_
  · exact fun q _ => hperm.mem_iff
  · exact iff_of_true hrunning hready
  · simp [Thread.setState]
  · exact fun _ => hready

theorem Scheduled.ticked {next : Address} {rest rest' : List Address}
    (hqueue : lib.readyQueue = lib.runningThread :: rest)
    (hrotated : rest ++ woken lib ++ [lib.runningThread] = next :: rest') :
    Scheduled (((((lib.countdown lib.allThreads).modifyThread lib.runningThread
      (Thread.setState .ready)).setQueue (next :: rest')).switchTo .timeHandler next).land next) := by
  obtain ⟨t, hmember, -⟩ := h.running_countdown hqueue hrotated
  exact Scheduled.of_switchTo (h.core_ticked hqueue hrotated) rfl .timeHandler
    ⟨_, SameThreads.member_modify hmember (Thread.setState .ready)⟩

/-- One step. -/
theorem Scheduled.of_effect (heffect : Effect lib op outcome lib') : Scheduled lib' := by
  cases heffect with
  | spawned _ hindex havailable _ => exact h.addThread hindex havailable
  | terminated hp hid hindex hzero hne => exact h.terminated hp hid hindex hzero hne
  | terminatedSelf ht hid hindex hzero hqueue hlib =>
      rw [hlib]
      exact h.terminatedSelf ht hid hindex hzero hqueue
  | blocked hp hzero hne _ => exact h.blocked hp hzero hne
  | blockedSelf ht hzero hqueue hlib =>
      rw [hlib]
      exact h.left ht rfl hzero hqueue (by simp [Thread.setState])
        (fun hrunnable => hrunnable.1 rfl) .blockHandler
  | resumed hp hblocked => exact h.resumed hp hblocked
  | slept ht hzero hqueue hlib =>
      rw [hlib]
      refine h.left ht rfl hzero hqueue (by simp [Thread.fallAsleep, Thread.setState]) ?_ .blockHandler
      intro hrunnable
      cases hrunnable.2
  | refused _ | blockedAlready _ _ _ _ | resumedAlready _ _ | gotTid _ | gotTotalQuantums
  | gotQuantums _ =>
      exact h
  | ticked hqueue hrotated hlib =>
      rw [hlib]
      exact h.ticked hqueue hrotated

theorem Scheduled.of_perform (hmain : op ≠ .terminate 0)
    (hrun : op.perform lib = some (outcome, lib')) : Effect lib op outcome lib' ∧ Scheduled lib' := by
  obtain ⟨outcome', lib'', hrun', heffect⟩ := perform_effect h hmain
  rw [hrun] at hrun'
  cases hrun'
  exact ⟨heffect, h.of_effect heffect⟩

end Step

theorem Scheduled.of_performs (h : Scheduled lib) (hstep : Performs lib op lib') :
    (∃ outcome, Effect lib op outcome lib') ∧ Scheduled lib' := by
  obtain ⟨hmain, outcome, hrun⟩ := hstep
  obtain ⟨heffect, hscheduled⟩ := h.of_perform hmain hrun
  exact ⟨⟨outcome, heffect⟩, hscheduled⟩

/-! ### Runs -/

/-- The main thread after `uthread_init`. -/
def Thread.main : Thread where
  id := 0
  state := .running
  timeToSleep := 0
  sleep := false
  quantumCounter := 1
  env := .entry null

/-- The library after `uthread_init`. -/
def ThreadLibrary.initialized : ThreadLibrary where
  readyQueue := [1]
  allThreads := [1]
  availableId := true :: List.replicate 99 false
  runningThread := 1
  threadToDelete := null
  d := false
  totalQuantum := 1
  threads := Function.update (fun _ => none) 1 (some Thread.main)
  allocated := 1

theorem initialized_iff {lib : ThreadLibrary} : Initialized lib ↔ lib = .initialized := by
  have hrun : ∀ quantumUsecs : Int32, ¬ quantumUsecs ≤ 0 →
      uthreadInit quantumUsecs .start = some (.returned 0, .initialized) := by
    intro quantumUsecs hpos
    rw [uthreadInit, run_ite, if_neg hpos]
    refine run_bind_eq (run_setIdValue (by decide)) ?_
    refine run_bind_eq (run_newThread 0 null) ?_
    refine run_bind_eq (run_assign ⟨_, rfl⟩) ?_
    refine run_bind_eq (run_modify _ _) ?_
    refine run_bind_eq (run_pushBack _) ?_
    refine run_bind_eq (run_startQuantum ⟨_, rfl⟩) ?_
    simp only [ThreadLibrary.begin, modifyThread, ThreadLibrary.setQueue, Function.update_idem]
    rfl
  constructor
  · rintro ⟨quantumUsecs, hinit⟩
    by_cases hpos : quantumUsecs ≤ 0
    · rw [uthreadInit, run_ite, if_pos hpos] at hinit
      cases hinit
    · rw [hrun quantumUsecs hpos] at hinit
      cases hinit
      rfl
  · rintro rfl
    exact ⟨1, hrun 1 (by decide)⟩

theorem member_initialized {p : Address} {t : Thread} (hp : ThreadLibrary.initialized.Member p t) :
    p = 1 ∧ t = Thread.main := by
  obtain ⟨hall, ht⟩ := hp
  obtain rfl := List.mem_singleton.mp hall
  cases ht
  exact ⟨rfl, rfl⟩

theorem scheduled_initialized : Scheduled .initialized := by
  have hmain : ThreadLibrary.initialized.Member 1 Thread.main := ⟨List.mem_singleton.mpr rfl, rfl⟩
  refine ⟨?_, rfl⟩
  constructor
  case all_nodup => exact List.nodup_singleton 1
  case queue_nodup => exact List.nodup_singleton 1
  case alive =>
    intro p hp
    obtain rfl := List.mem_singleton.mp hp
    exact ⟨_, hmain.2⟩
  case queue_subset => exact id
  case queued_iff =>
    intro p t hp
    obtain ⟨rfl, rfl⟩ := member_initialized hp
    exact iff_of_true (List.mem_singleton.mpr rfl) ⟨by decide, rfl⟩
  case running_iff =>
    intro p t hp
    obtain ⟨rfl, rfl⟩ := member_initialized hp
    exact iff_of_true rfl rfl
  case main => exact ⟨1, _, hmain, rfl, by decide, rfl⟩
  case id_injective =>
    intro p q t u hp hq _
    rw [(member_initialized hp).1, (member_initialized hq).1]
  case table_length => rfl
  case id_table =>
    intro i hi
    cases i with
    | zero => exact iff_of_true rfl ⟨1, _, hmain, rfl⟩
    | succ i =>
        refine iff_of_false ?_ ?_
        · change (List.replicate 99 false)[i]? ≠ some true
          rw [List.getElem?_replicate]
          split <;> simp
        · rintro ⟨p, t, hp, hid⟩
          rw [(member_initialized hp).2] at hid
          have hzero := (asInt_eq_zero_iff (hi.trans (by decide))).mp hid.symm
          cases hzero
  case id_range =>
    intro p t hp
    exact ⟨0, by decide, by rw [(member_initialized hp).2]; rfl⟩
  case null_dead => rfl
  case allocated =>
    intro p t hp
    by_cases heq : p = 1
    · exact heq.le
    · simp [ThreadLibrary.initialized, heq] at hp
  case pending => exact fun hd => by cases hd

theorem run_performAll {start : ThreadLibrary} {before ops : List Op}
    (hbefore : Run Performs start before lib) (hperform : performAll ops lib = some lib') :
    Run Performs start (before ++ ops) lib' := by
  induction ops generalizing before lib with
  | nil =>
      rw [List.append_nil]
      cases hperform
      exact hbefore
  | cons op rest ih =>
      rw [performAll] at hperform
      split at hperform
      · cases hperform
      · rename_i hmain
        obtain ⟨⟨outcome, middle⟩, hop, hrest⟩ := Option.bind_eq_some_iff.mp hperform
        have hnext := hbefore.next ⟨hmain, outcome, hop⟩
        rw [List.append_cons]
        exact ih hnext hrest

theorem reachable_performAll {ops : List Op} (hperform : performAll ops .initialized = some lib) :
    Reachable lib :=
  ⟨_, ops, initialized_iff.mpr rfl, run_performAll .start hperform⟩

theorem Reachable.scheduled (hreach : Reachable lib) : Scheduled lib := by
  obtain ⟨start, ops, hinit, hrun⟩ := hreach
  rw [initialized_iff.mp hinit] at hrun
  exact hrun.invariant scheduled_initialized fun _ _ _ h hstep => (h.of_performs hstep).2

/-! ### What the invariant says -/

/-- The five structures of the scheduler agree. -/
structure SchedulerInvariant (lib : ThreadLibrary) : Prop where
  queue_ne_nil : lib.readyQueue ≠ []
  queue_nodup : lib.readyQueue.Nodup
  queue_subset : ∀ p ∈ lib.readyQueue, p ∈ lib.allThreads
  all_nodup : lib.allThreads.Nodup
  all_alive : ∀ p ∈ lib.allThreads, ∃ t, lib.Member p t
  front : lib.readyQueue.head? = some lib.runningThread
  running : ∃ t, lib.Member lib.runningThread t ∧ t.state = .running ∧ t.sleep = false
  only_running : ∀ p t, lib.Member p t → t.state = .running → p = lib.runningThread
  queued_iff : ∀ p t, lib.Member p t → p ≠ lib.runningThread →
    (p ∈ lib.readyQueue ↔ t.state = .ready ∧ t.sleep = false)
  main : ∃ p t, lib.Member p t ∧ t.id = 0 ∧ p ∈ lib.readyQueue ∧ t.state ≠ .blocked ∧
    t.sleep = false
  ids_distinct : ∀ p q t u, lib.Member p t → lib.Member q u → t.id = u.id → p = q
  ids_taken : ∀ p t, lib.Member p t → ∃ i : Nat, lib.availableId[i]? = some true ∧ t.id = asInt i
  taken_ids : ∀ i : Nat, lib.availableId[i]? = some true → ∃ p t, lib.Member p t ∧ t.id = asInt i

theorem Scheduled.schedulerInvariant (h : Scheduled lib) : SchedulerInvariant lib := by
  have hqueue := List.mem_of_mem_head? h.front
  obtain ⟨t, ht⟩ := running_member h
  constructor
  case queue_ne_nil => exact List.ne_nil_of_mem hqueue
  case queue_nodup => exact h.core.queue_nodup
  case queue_subset => exact fun p hp => h.core.queue_subset hp
  case all_nodup => exact h.core.all_nodup
  case all_alive =>
    intro p hp
    obtain ⟨u, hu⟩ := h.core.alive hp
    exact ⟨u, hp, hu⟩
  case front => exact h.front
  case running =>
    exact ⟨t, ht, (h.core.running_iff ht).mpr rfl, ((h.core.queued_iff ht).mp hqueue).2⟩
  case only_running =>
    intro p u hp hstate
    exact (Option.some.inj ((h.core.running_iff hp).mp hstate)).symm
  case queued_iff =>
    intro p u hp hne
    have hnot : u.state ≠ .running := fun hstate =>
      hne (Option.some.inj ((h.core.running_iff hp).mp hstate)).symm
    rw [h.core.queued_iff hp, Thread.Runnable]
    cases hstate : u.state <;> simp_all
  case main =>
    obtain ⟨p, u, hp, hid, hrunnable⟩ := h.core.main
    exact ⟨p, u, hp, hid, (h.core.queued_iff hp).mpr hrunnable, hrunnable⟩
  case ids_distinct => exact fun p q t u hp hq => h.core.id_injective hp hq
  case ids_taken =>
    intro p u hp
    obtain ⟨i, hi, hid⟩ := h.core.id_range hp
    exact ⟨i, (h.core.id_table hi).mpr ⟨p, u, hp, hid⟩, hid⟩
  case taken_ids =>
    intro i htaken
    have hi : i < maxThreadNum := by
      rw [← h.core.table_length]
      exact (List.getElem?_eq_some_iff.mp htaken).1
    exact (h.core.id_table hi).mp htaken

/-- Every reachable state is in order, and from it every operation goes through: no handler takes the
front of an empty queue. -/
theorem reachable_schedulerInvariant (hreach : Reachable lib) :
    SchedulerInvariant lib ∧
      ∀ op : Op, op ≠ .terminate 0 → ∃ outcome lib', op.perform lib = some (outcome, lib') := by
  refine ⟨hreach.scheduled.schedulerInvariant, fun op hmain => ?_⟩
  obtain ⟨outcome, lib', hrun, -⟩ := perform_effect hreach.scheduled hmain
  exact ⟨outcome, lib', hrun⟩

/-- The first of two threads sleeps and the second one is blocked. -/
theorem schedulerInvariant_blocked : ∃ lib,
    performAll [.spawn 7, .spawn 8, .tick, .sleep 3, .block 2] .initialized = some lib ∧
      lib.readyQueue = [1] ∧ lib.allThreads = [1, 2, 3] ∧ SchedulerInvariant lib ∧
      ∃ outcome lib', Op.tick.perform lib = some (outcome, lib') := by
  have hcomputed : (performAll [.spawn 7, .spawn 8, .tick, .sleep 3, .block 2] .initialized).any
      (fun lib => lib.readyQueue == [1] && lib.allThreads == [1, 2, 3]) = true := by
    decide +kernel
  obtain ⟨lib, hperform, hlists⟩ := Option.any_eq_true _ _ |>.mp hcomputed
  obtain ⟨hqueue, hall⟩ : lib.readyQueue = [1] ∧ lib.allThreads = [1, 2, 3] := by
    simpa using hlists
  obtain ⟨hinvariant, hdefined⟩ := reachable_schedulerInvariant (reachable_performAll hperform)
  exact ⟨lib, hperform, hqueue, hall, hinvariant, hdefined .tick (by decide)⟩

end OsExercises.Uthreads
