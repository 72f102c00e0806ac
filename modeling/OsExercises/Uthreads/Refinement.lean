import OsExercises.Uthreads.Scheduler
import OsExercises.Uthreads.Wakeup

/-!
# The library and its scheduler

One step: what an effect does to a library, the scheduler does to its view, with the same outcome. A
run: the library and the scheduler have the same traces, so nothing that a caller can observe
depends on the objects, on the id table or on the deletions that are pending.
-/

namespace OsExercises.Uthreads

open ThreadLibrary

variable {lib lib' : ThreadLibrary} {running : Option Address} {p : Address} {t : Thread}

/-! ### The view of a library -/

theorem taskAt_eq (ht : lib.threads p = some t) : lib.taskAt p = some t.task := by
  rw [taskAt, ht, Option.map_some]

theorem idAt_eq (ht : lib.threads p = some t) : lib.idAt p = some t.id := by
  rw [idAt, ht, Option.map_some]

theorem scheduler_congr (hall : lib'.allThreads = lib.allThreads)
    (hqueue : lib'.readyQueue = lib.readyQueue) (htotal : lib'.totalQuantum = lib.totalQuantum)
    (hsubset : ∀ p ∈ lib.readyQueue, p ∈ lib.allThreads)
    (hthreads : ∀ p ∈ lib.allThreads, lib'.threads p = lib.threads p) :
    lib'.scheduler = lib.scheduler := by
  ext1
  · change lib'.allThreads.filterMap lib'.taskAt = lib.allThreads.filterMap lib.taskAt
    rw [hall]
    apply List.filterMap_congr
    intro p hp
    rw [taskAt, taskAt, hthreads p hp]
  · change lib'.readyQueue.filterMap lib'.idAt = lib.readyQueue.filterMap lib.idAt
    rw [hqueue]
    apply List.filterMap_congr
    intro p hp
    rw [idAt, idAt, hthreads p (hsubset p hp)]
  · exact htotal

theorem mem_tasks_iff {task : Task} :
    task ∈ lib.scheduler.tasks ↔ ∃ p t, lib.Member p t ∧ t.task = task := by
  change task ∈ lib.allThreads.filterMap lib.taskAt ↔ _
  rw [List.mem_filterMap]
  constructor
  · rintro ⟨p, hp, htask⟩
    obtain ⟨t, ht, rfl⟩ := Option.map_eq_some_iff.mp htask
    exact ⟨p, t, ⟨hp, ht⟩, rfl⟩
  · rintro ⟨p, t, hp, rfl⟩
    exact ⟨p, hp.1, taskAt_eq hp.2⟩

theorem find_eq_none_iff {tid : Int32} :
    lib.scheduler.find tid = none ↔ ∀ p t, lib.Member p t → t.id ≠ tid := by
  rw [Scheduler.find, List.find?_eq_none]
  simp only [decide_eq_true_eq]
  constructor
  · exact fun hnone p t hp => hnone t.task (mem_tasks_iff.mpr ⟨p, t, hp, rfl⟩)
  · rintro hnone task htask
    obtain ⟨p, t, hp, rfl⟩ := mem_tasks_iff.mp htask
    exact hnone p t hp

theorem idAt_modifyThread (change : Thread → Thread) (hid : ∀ t, (change t).id = t.id) :
    (lib.modifyThread p change).idAt = lib.idAt := by
  funext q
  rw [idAt, modifyThread_threads, idAt]
  split
  · rename_i heq
    rw [heq, Option.map_map]
    exact congrArg (Option.map · _) (funext hid)
  · rfl

section View

variable (h : Core lib running)
include h

theorem find_member (hp : lib.Member p t) : lib.scheduler.find t.id = some t.task := by
  cases hfind : lib.scheduler.find t.id with
  | none => exact absurd rfl (find_eq_none_iff.mp hfind p t hp)
  | some task =>
      obtain ⟨q, u, hq, rfl⟩ := mem_tasks_iff.mp (List.mem_of_find?_eq_some hfind)
      have hid : u.id = t.id := of_decide_eq_true (List.find?_some hfind :)
      obtain rfl := h.id_injective hq hp hid
      rw [hq.unique hp]

/-- One thread changes, and its task with it. -/
theorem scheduler_modifyThread (hp : lib.Member p t) (change : Thread → Thread) {f : Task → Task}
    (hid : ∀ t, (change t).id = t.id) (hchange : (change t).task = f t.task) :
    (lib.modifyThread p change).scheduler = lib.scheduler.change t.id f := by
  ext1
  · change lib.allThreads.filterMap (lib.modifyThread p change).taskAt =
      (lib.allThreads.filterMap lib.taskAt).map _
    rw [List.map_filterMap]
    apply List.filterMap_congr
    intro q hq
    obtain ⟨u, hu⟩ := h.member_of_mem hq
    rw [taskAt_eq hu.2, Option.map_some, taskAt, modifyThread_threads]
    by_cases heq : q = p
    · obtain rfl : u = t := hu.unique (heq ▸ hp)
      rw [if_pos heq, hp.2, Option.map_some, Option.map_some, hchange]
      exact congrArg some (if_pos rfl).symm
    · have hne : u.id ≠ t.id := fun hsame => heq (h.id_injective hu hp hsame)
      rw [if_neg heq, hu.2, Option.map_some]
      exact congrArg some (if_neg hne).symm
  · change lib.readyQueue.filterMap (lib.modifyThread p change).idAt = _
    rw [idAt_modifyThread change hid]
    rfl
  · rfl

theorem scheduler_modifyThread_same (hp : lib.Member p t) (change : Thread → Thread)
    (hid : ∀ t, (change t).id = t.id) (hchange : (change t).task = t.task) :
    (lib.modifyThread p change).scheduler = lib.scheduler := by
  rw [scheduler_modifyThread h hp change (f := id) hid hchange]
  ext1
  · exact (List.map_congr_left fun task _ => ite_self task).trans (List.map_id _)
  · rfl
  · rfl

/-- A thread that leaves a list leaves the view of it. -/
theorem filterMap_erase {α : Type} {f : Thread → α} (key : α → Int32) (hkey : ∀ t, key (f t) = t.id)
    {ps : List Address} (hnodup : ps.Nodup) (hps : ∀ q ∈ ps, q ∈ lib.allThreads)
    (hp : lib.Member p t) :
    (ps.erase p).filterMap (fun q => (lib.threads q).map f) =
      (ps.filterMap fun q => (lib.threads q).map f).filter fun a => key a ≠ t.id := by
  rw [hnodup.erase_eq_filter, List.filterMap_filter, List.filter_filterMap]
  apply List.filterMap_congr
  intro q hq
  obtain ⟨u, hu⟩ := h.member_of_mem (hps q hq)
  rw [hu.2, Option.map_some, Option.filter_some, hkey]
  by_cases heq : q = p
  · obtain rfl : u = t := hu.unique (heq ▸ hp)
    simp [heq]
  · have hne : u.id ≠ t.id := fun hsame => heq (h.id_injective hu hp hsame)
    simp [heq, hne]

theorem queue_erase (hp : lib.Member p t) :
    (lib.readyQueue.erase p).filterMap lib.idAt = (lib.scheduler.unqueue t.id).queue :=
  filterMap_erase h (f := Thread.id) id (fun _ => rfl) h.queue_nodup
    (fun _ hq => h.queue_subset hq) hp

theorem tasks_erase (hp : lib.Member p t) :
    (lib.allThreads.erase p).filterMap lib.taskAt = (lib.scheduler.remove t.id).tasks :=
  filterMap_erase h (f := Thread.task) Task.id (fun _ => rfl) h.all_nodup
    (fun _ hq => hq) hp

end View

theorem queue_front {rest : List Address} (hqueue : lib.readyQueue = p :: rest)
    (hp : lib.Member p t) : lib.scheduler.queue = t.id :: rest.filterMap lib.idAt := by
  change lib.readyQueue.filterMap lib.idAt = _
  rw [hqueue, List.filterMap_cons_some (idAt_eq hp.2)]

/-! ### Who starts and who is resumed -/

/-- Once the thread had a quantum, a handler saved it. -/
def Thread.Saved (t : Thread) : Prop :=
  t.quantumCounter ≠ 0 → ∀ entryPoint, t.env ≠ .entry entryPoint

/-- The running thread has a quantum, and the others that had one were saved. -/
def Contexts (lib : ThreadLibrary) : Prop :=
  ForThreads (fun p t => if p = lib.runningThread then t.quantumCounter ≠ 0 else t.Saved) lib

theorem Contexts.counter (hcontexts : Contexts lib) (ht : lib.Member lib.runningThread t) :
    t.quantumCounter ≠ 0 := by
  have hrunning : if lib.runningThread = lib.runningThread then t.quantumCounter ≠ 0 else t.Saved :=
    hcontexts _ t ht
  rwa [if_pos rfl] at hrunning

theorem Contexts.saved (hcontexts : Contexts lib) (hp : lib.Member p t)
    (hne : p ≠ lib.runningThread) : t.Saved := by
  have hsaved : if p = lib.runningThread then t.quantumCounter ≠ 0 else t.Saved := hcontexts p t hp
  rwa [if_neg hne] at hsaved

/-- An operation without a switch. -/
theorem Contexts.quiet (hcontexts : Contexts lib) (p : Address) {change : Thread → Thread}
    (queue : List Address) (hcounter : ∀ t, (change t).quantumCounter = t.quantumCounter)
    (henv : ∀ t, (change t).env = t.env) :
    Contexts ((lib.modifyThread p change).setQueue queue) := by
  apply ForThreads.modifyThread hcontexts
  intro t _ ht
  unfold Thread.Saved
  rw [hcounter, henv]
  exact ht

theorem Thread.Saved.countdown (hsaved : t.Saved) : t.countdown.Saved := by
  have henv : t.countdown.env = t.env := by
    unfold Thread.countdown
    split
    · split <;> rfl
    · rfl
  unfold Thread.Saved
  rw [steady_quantumCounter.countdown, henv]
  exact hsaved

theorem task_setState {state : State} (hstate : t.state ≠ .blocked) (hne : state ≠ .blocked) :
    (t.setState state).task = t.task := by
  have hflag : (state == .blocked) = (t.state == .blocked) := by
    rw [beq_eq_false_iff_ne.mpr hstate, beq_eq_false_iff_ne.mpr hne]
  change { t.task with blocked := state == .blocked } = t.task
  rw [hflag]
  rfl

theorem start_eq_none (hcounter : t.quantumCounter ≠ 0) : t.start = none := by
  unfold Thread.start
  split
  · exact if_neg hcounter
  · rfl

theorem task_increaceQuantumCounter (t : Thread) :
    t.increaceQuantumCounter.task = t.task.beginQuantum := by
  have hstart : t.increaceQuantumCounter.start = none := start_eq_none (Nat.succ_ne_zero _)
  change { t.task.beginQuantum with start := t.increaceQuantumCounter.start } = _
  rw [hstart]
  rfl

theorem task_saveEnv {env : Env} (hcounter : t.quantumCounter ≠ 0) :
    (t.saveEnv env).task = t.task := by
  change { t.task with start := (t.saveEnv env).start } = t.task
  rw [start_eq_none (t := t.saveEnv env) hcounter, ← start_eq_none hcounter]
  rfl

theorem task_countdown (t : Thread) : t.countdown.task = t.task.countdown := by
  unfold Thread.countdown
  cases hsleep : t.sleep with
  | false =>
      rw [if_neg Bool.false_ne_true]
      simp [Thread.task, Thread.start, Task.countdown, hsleep]
  | true =>
      by_cases hone : t.timeToSleep = 1
      · simp [Thread.task, Thread.start, Task.countdown, hsleep, hone, Thread.decreaceTimeToSleep,
          Thread.setSleep]
      · simp [Thread.task, Thread.start, Task.countdown, hsleep, hone, Thread.decreaceTimeToSleep]

theorem scheduler_land (h : Core lib running) (next : Address) :
    (lib.land next).scheduler = lib.scheduler := by
  unfold land
  split
  · rfl
  · split
    · rename_i hd
      refine scheduler_congr rfl rfl rfl (fun _ hp => h.queue_subset hp) ?_
      intro p hp
      have hne : p ≠ lib.threadToDelete := fun heq => (h.pending hd).1 (heq ▸ hp)
      exact (Core.deleteObject_threads lib _ p).trans (if_neg hne)
    · rfl

/-- The jump to a saved thread goes where its task says. -/
theorem landing_begin {next : Address} (ht : lib.threads next = some t) (hsaved : t.Saved) :
    (lib.begin next).landing next = match t.task.start with
      | some entryPoint => .entered entryPoint
      | none => .resumed := by
  have hbegin : (lib.begin next).threads next = some t.increaceQuantumCounter :=
    modifyThread_eq ht _
  have henv : t.increaceQuantumCounter.env = t.env := rfl
  rw [landing, hbegin, Option.map_some, henv, Thread.task, Thread.start]
  cases hleads : t.env with
  | entry entryPoint =>
      have hcounter : t.quantumCounter = 0 := by
        by_contra hne
        exact hsaved hne entryPoint hleads
      simp [hcounter]
  | blockHandler => rfl
  | timeHandler => rfl

/-- The front of the queue begins a quantum, in the library and in its view. -/
theorem dispatch_begin {next : Address} (h : Core lib running)
    (hfront : lib.readyQueue.head? = some next) (hsaved : ForThreads (fun _ t => t.Saved) lib) :
    lib.scheduler.dispatch = some ((lib.begin next).landing next,
      ((lib.begin next).land next).scheduler) ∧ Contexts ((lib.begin next).land next) := by
  obtain ⟨t, ht⟩ := h.member_of_queue (List.mem_of_mem_head? hfront)
  obtain ⟨rest, hqueue⟩ := List.head?_eq_some_iff.mp hfront
  constructor
  · have hrunning : lib.scheduler.running = some t.id := by
      rw [Scheduler.running, queue_front hqueue ht]
      rfl
    have hcounted : Core { lib with runningThread := next, totalQuantum := lib.totalQuantum + 1 }
        running :=
      h.of_sameLists rfl rfl rfl rfl (fun _ _ => rfl) (fun _ _ => id) h.pending
    have hview : (lib.begin next).scheduler =
        { lib.scheduler.change t.id Task.beginQuantum with total := lib.scheduler.total + 1 } :=
      scheduler_modifyThread hcounted ht _ (fun _ => rfl) (task_increaceQuantumCounter t)
    rw [scheduler_land (h.begin ht), hview, landing_begin ht.2 (hsaved next t ht),
      Scheduler.dispatch, hrunning, Option.bind_eq_bind, Option.bind_some, find_member h ht]
    rfl
  · have hbegin : ForThreads (fun p t => if p = next then t.quantumCounter ≠ 0 else t.Saved)
        (lib.begin next) := by
      rintro q u ⟨hall, hu⟩
      rw [ThreadLibrary.begin, modifyThread_threads] at hu
      by_cases heq : q = next
      · rw [if_pos heq]
        rw [if_pos heq, ht.2] at hu
        obtain rfl := Option.some.inj hu
        exact Nat.succ_ne_zero _
      · rw [if_neg heq]
        rw [if_neg heq] at hu
        exact hsaved q u ⟨hall, hu⟩
    unfold Contexts
    rw [land_runningThread]
    exact hbegin.land next

section Switch

variable {next : Address} (h : Core lib none) (hfront : lib.readyQueue.head? = some next)
include h hfront

theorem scheduler_startRunning :
    (lib.modifyThread next (Thread.setState .running)).scheduler = lib.scheduler := by
  have hqueued := List.mem_of_mem_head? hfront
  obtain ⟨t, ht⟩ := h.member_of_queue hqueued
  have hrunnable := (h.queued_iff ht).mp hqueued
  exact scheduler_modifyThread_same h ht _ (fun _ => rfl) (task_setState hrunnable.1 (by simp))

theorem dispatch_startRunning (hsaved : ForThreads (fun _ t => t.Saved) lib) :
    lib.scheduler.dispatch =
        some (((lib.modifyThread next (Thread.setState .running)).begin next).landing next,
          (((lib.modifyThread next (Thread.setState .running)).begin next).land next).scheduler) ∧
      Contexts (((lib.modifyThread next (Thread.setState .running)).begin next).land next) := by
  have hqueued := List.mem_of_mem_head? hfront
  obtain ⟨t, ht⟩ := h.member_of_queue hqueued
  rw [← scheduler_startRunning h hfront]
  apply dispatch_begin (h.startRunning ht hqueued) hfront
  exact hsaved.modifyThread fun _ _ hu => hu

theorem dispatch_switchTo (ht : lib.Member lib.runningThread t) (hcounter : t.quantumCounter ≠ 0)
    (hsaved : ForThreads (fun p t => p ≠ lib.runningThread → t.Saved) lib) {env : Env}
    (henv : ∀ entryPoint, env ≠ .entry entryPoint) :
    lib.scheduler.dispatch = some ((lib.switchTo env next).landing next,
        ((lib.switchTo env next).land next).scheduler) ∧
      Contexts ((lib.switchTo env next).land next) := by
  have hqueued := List.mem_of_mem_head? hfront
  obtain ⟨u, hu⟩ := h.member_of_queue hqueued
  have hrun := h.startRunning hu hqueued
  obtain ⟨t', ht', hcounter'⟩ : ∃ t',
      (lib.modifyThread next (Thread.setState .running)).Member lib.runningThread t' ∧
        t'.quantumCounter ≠ 0 := by
    by_cases heq : lib.runningThread = next
    · refine ⟨t.setState .running, ?_, hcounter⟩
      exact (SameThreads.member_modify_iff (heq ▸ ht)).mpr (Or.inl ⟨heq, rfl⟩)
    · exact ⟨t, (SameThreads.member_modify_iff hu).mpr (Or.inr ⟨heq, ht⟩), hcounter⟩
  have hsave : ((lib.modifyThread next (Thread.setState .running)).modifyThread lib.runningThread
      (Thread.saveEnv env)).scheduler = lib.scheduler :=
    (scheduler_modifyThread_same hrun ht' (Thread.saveEnv env) (fun _ => rfl)
      (task_saveEnv hcounter')).trans (scheduler_startRunning h hfront)
  rw [← hsave]
  apply dispatch_begin (hrun.touch ht' rfl rfl rfl) hfront
  have hothers : ForThreads (fun p t => p ≠ lib.runningThread → t.Saved)
      (lib.modifyThread next (Thread.setState .running)) :=
    hsaved.modifyThread fun _ _ hsaved => hsaved
  intro q v hq
  rcases (SameThreads.member_modify_iff ht').mp hq with ⟨-, rfl⟩ | ⟨hne, hq⟩
  · exact fun _ => henv
  · exact hothers q v hq hne

end Switch

/-! ### One step -/

section Step

variable (h : Scheduled lib) (hcontexts : Contexts lib)

theorem handOver_running {s : Scheduler} {rest : List Address}
    (hqueue : lib.readyQueue = lib.runningThread :: rest) (ht : lib.Member lib.runningThread t) :
    lib.scheduler.handOver t.id s = s.dispatch := by
  rw [Scheduler.handOver, Scheduler.running, queue_front hqueue ht]
  exact if_pos rfl

include h

theorem running_eq (ht : lib.Member lib.runningThread t) : lib.scheduler.running = some t.id := by
  obtain ⟨rest, hqueue⟩ := List.head?_eq_some_iff.mp h.front
  rw [Scheduler.running, queue_front hqueue ht]
  rfl

theorem handOver_other {s : Scheduler} (hp : lib.Member p t) (hne : p ≠ lib.runningThread) :
    lib.scheduler.handOver t.id s = some (.returned 0, s) := by
  obtain ⟨u, hu⟩ := running_member h
  have hid : u.id ≠ t.id := fun hsame => hne (h.core.id_injective hu hp hsame).symm
  rw [Scheduler.handOver, running_eq h hu]
  exact if_neg fun heq => hid (Option.some.inj heq)

theorem freeId_eq {index : Nat} (hindex : index < maxThreadNum)
    (havailable : lib.availableId[index]? = some false)
    (htaken : ∀ i < index, lib.availableId[i]? = some true) :
    lib.scheduler.freeId = some (asInt index) := by
  have hfind : (List.range maxThreadNum).find? (fun i => (lib.scheduler.find (asInt i)).isNone) =
      some index := by
    rw [List.find?_range_eq_some]
    refine ⟨?_, List.mem_range.mpr hindex, ?_⟩
    · rw [Option.isNone_iff_eq_none, find_eq_none_iff]
      intro p t hp hid
      have hlookup := (h.core.id_table hindex).mpr ⟨p, t, hp, hid⟩
      rw [havailable] at hlookup
      cases hlookup
    · intro i hi
      obtain ⟨p, t, hp, hid⟩ := (h.core.id_table (hi.trans hindex)).mp (htaken i hi)
      rw [← hid, find_member h.core hp]
      rfl
  rw [Scheduler.freeId, hfind, Option.map_some]

theorem freeId_eq_none (htaken : ∀ i < maxThreadNum, lib.availableId[i]? = some true) :
    lib.scheduler.freeId = none := by
  rw [Scheduler.freeId, Option.map_eq_none_iff, List.find?_eq_none]
  intro i hi
  have hi := List.mem_range.mp hi
  obtain ⟨p, t, hp, hid⟩ := (h.core.id_table hi).mp (htaken i hi)
  rw [← hid, find_member h.core hp]
  simp

/-! What each change does to the view. -/

theorem scheduler_addThread {index : Nat} {entryPoint : Address} :
    (lib.addThread index entryPoint).scheduler =
      lib.scheduler.spawn (asInt index) entryPoint := by
  have hnew : (lib.addThread index entryPoint).threads (lib.allocated + 1) =
      some (.new (asInt index) entryPoint) :=
    Function.update_self ..
  have hold : ∀ q ∈ lib.allThreads,
      (lib.addThread index entryPoint).threads q = lib.threads q := by
    intro q hq
    apply Function.update_of_ne
    rintro rfl
    obtain ⟨t, ht⟩ := h.core.alive hq
    rw [h.core.allocated_fresh] at ht
    cases ht
  ext1
  · change (lib.allThreads ++ [lib.allocated + 1]).filterMap _ = _
    rw [List.filterMap_append, List.filterMap_cons_some (taskAt_eq hnew), List.filterMap_nil]
    refine congrArg (· ++ _) (List.filterMap_congr fun q hq => ?_)
    rw [taskAt, taskAt, hold q hq]
  · change (lib.readyQueue ++ [lib.allocated + 1]).filterMap _ = _
    rw [List.filterMap_append, List.filterMap_cons_some (idAt_eq hnew), List.filterMap_nil]
    refine congrArg (· ++ _) (List.filterMap_congr fun q hq => ?_)
    rw [idAt, idAt, hold q (h.core.queue_subset hq)]
  · rfl

theorem scheduler_removeThread (hp : lib.Member p t) (index : Nat) :
    (lib.removeThread p index).scheduler = lib.scheduler.remove t.id := by
  ext1
  · exact tasks_erase h.core hp
  · exact queue_erase h.core hp
  · rfl

theorem scheduler_terminated (hp : lib.Member p t) (index : Nat) :
    ((lib.removeThread p index).deleteObject p).scheduler = lib.scheduler.remove t.id := by
  rw [← scheduler_removeThread h hp index]
  refine scheduler_congr rfl rfl rfl ?_ ?_
  · intro q hq
    have hq := h.core.queue_nodup.mem_erase_iff.mp hq
    exact h.core.all_nodup.mem_erase_iff.mpr ⟨hq.1, h.core.queue_subset hq.2⟩
  · intro q hq
    have hne := (h.core.all_nodup.mem_erase_iff.mp hq).1
    exact (Core.deleteObject_threads _ p q).trans (if_neg hne)

/-- A thread changes and leaves the queue. -/
theorem scheduler_unqueued (hp : lib.Member p t) (change : Thread → Thread) {f : Task → Task}
    (hid : ∀ t, (change t).id = t.id) (hchange : (change t).task = f t.task) :
    ((lib.modifyThread p change).setQueue (lib.readyQueue.erase p)).scheduler =
      (lib.scheduler.change t.id f).unqueue t.id := by
  have hview := scheduler_modifyThread h.core hp change hid hchange
  ext1
  · exact (congrArg Scheduler.tasks hview :)
  · change (lib.readyQueue.erase p).filterMap (lib.modifyThread p change).idAt = _
    rw [idAt_modifyThread change hid]
    exact queue_erase h.core hp
  · rfl

theorem scheduler_resumed (hp : lib.Member p t) :
    ((lib.modifyThread p (Thread.setState .ready)).setQueue
      (if t.sleep then lib.readyQueue else lib.readyQueue ++ [p])).scheduler =
      lib.scheduler.resume t.task := by
  have hview := scheduler_modifyThread h.core hp (Thread.setState .ready)
    (f := Task.setBlocked false) (fun _ => rfl) rfl
  have hsome : t.task.wakesIn.isSome = t.sleep := by
    change (if t.sleep then some t.timeToSleep else none).isSome = t.sleep
    cases t.sleep <;> rfl
  ext1
  · exact (congrArg Scheduler.tasks hview :)
  · change (if t.sleep then lib.readyQueue else lib.readyQueue ++ [p]).filterMap
      (lib.modifyThread p (Thread.setState .ready)).idAt =
      if t.task.wakesIn.isSome then lib.scheduler.queue else lib.scheduler.queue ++ [t.id]
    rw [idAt_modifyThread (Thread.setState .ready) fun _ => rfl, hsome]
    split
    · rfl
    · rw [List.filterMap_append, List.filterMap_cons_some (idAt_eq hp.2), List.filterMap_nil]
      rfl
  · rfl

theorem wakesUp_task (hp : lib.Member p t) : t.task.wakesUp = t.wakesUp := by
  have hawake : t.state = .running → t.sleep = false := by
    intro hstate
    have hrunning := (h.core.running_iff hp).mp hstate
    have hqueued : p ∈ lib.readyQueue := List.mem_of_mem_head? (h.front.trans hrunning)
    exact ((h.core.queued_iff hp).mp hqueued).2
  change (decide ((if t.sleep then some t.timeToSleep else none) = some 1) &&
    !(t.state == .blocked)) = (t.sleep && t.timeToSleep == 1 && t.state == .ready)
  cases hsleep : t.sleep with
  | false => simp
  | true =>
      cases hstate : t.state with
      | ready =>
          have hflag : (State.ready == State.blocked) = false := rfl
          by_cases hone : t.timeToSleep = 1
          · simp [hflag, hone]
          · simp [hflag, hone]
      | blocked =>
          have hflag : (State.blocked == State.ready) = false := rfl
          simp [hflag]
      | running =>
          rw [hawake hstate] at hsleep
          cases hsleep

/-- The threads that wake up, in the order in which they were spawned. -/
theorem filterMap_woken : (woken lib).filterMap lib.idAt =
    (lib.scheduler.tasks.filter Task.wakesUp).map Task.id := by
  change _ = ((lib.allThreads.filterMap lib.taskAt).filter Task.wakesUp).map Task.id
  rw [woken, List.filterMap_filter, List.filter_filterMap, List.map_filterMap]
  apply List.filterMap_congr
  intro q hq
  obtain ⟨u, hu⟩ := h.core.member_of_mem hq
  rw [hu.2, Option.any_some, idAt_eq hu.2, taskAt_eq hu.2, Option.filter_some, wakesUp_task h hu]
  cases u.wakesUp <;> rfl

theorem scheduler_ticked {next : Address} {rest rest' : List Address}
    (hqueue : lib.readyQueue = lib.runningThread :: rest)
    (hrotated : rest ++ woken lib ++ [lib.runningThread] = next :: rest') :
    (((lib.countdown lib.allThreads).modifyThread lib.runningThread
      (Thread.setState .ready)).setQueue (next :: rest')).scheduler = lib.scheduler.rotate := by
  obtain ⟨t, ht⟩ := running_member h
  obtain ⟨u, hu, hrunnable⟩ := h.running_countdown hqueue hrotated
  have hview := scheduler_modifyThread_same (core_countdown h) hu (Thread.setState .ready)
    (fun _ => rfl) (task_setState hrunnable.1 (by simp))
  have hids : ((lib.countdown lib.allThreads).modifyThread lib.runningThread
      (Thread.setState .ready)).idAt = lib.idAt := by
    rw [idAt_modifyThread (Thread.setState .ready) fun _ => rfl]
    exact field_countdown steady_id lib lib.allThreads
  have hfront := queue_front hqueue ht
  ext1
  · calc
      (((lib.countdown lib.allThreads).modifyThread lib.runningThread
          (Thread.setState .ready)).setQueue (next :: rest')).scheduler.tasks
        = (lib.countdown lib.allThreads).scheduler.tasks := (congrArg Scheduler.tasks hview :)
      _ = lib.allThreads.filterMap fun q => (lib.taskAt q).map Task.countdown := by
          apply List.filterMap_congr
          intro q hq
          obtain ⟨v, hv⟩ := h.core.member_of_mem hq
          have hv' := (Core.member_countdown_iff lib).mpr ⟨v, hv, rfl⟩
          rw [taskAt_eq hv'.2, taskAt_eq hv.2, Option.map_some, task_countdown]
      _ = lib.scheduler.rotate.tasks := List.map_filterMap.symm
  · change (next :: rest').filterMap ((lib.countdown lib.allThreads).modifyThread lib.runningThread
      (Thread.setState .ready)).idAt = _
    calc
      (next :: rest').filterMap ((lib.countdown lib.allThreads).modifyThread lib.runningThread
          (Thread.setState .ready)).idAt
        = (rest ++ woken lib ++ [lib.runningThread]).filterMap lib.idAt := by rw [hids, hrotated]
      _ = rest.filterMap lib.idAt ++ (lib.scheduler.tasks.filter Task.wakesUp).map Task.id ++
            [t.id] := by
          rw [List.filterMap_append, List.filterMap_append, filterMap_woken h,
            List.filterMap_cons_some (idAt_eq ht.2), List.filterMap_nil]
      _ = lib.scheduler.rotate.queue := by
          rw [Scheduler.rotate, hfront]
          rfl
  · rfl

/-- A blocked thread is not in the queue. -/
theorem blocked_again (hp : lib.Member p t) (hblocked : t.state = .blocked) :
    (lib.scheduler.change t.id (Task.setBlocked true)).unqueue t.id = lib.scheduler := by
  have hout : p ∉ lib.readyQueue := fun hqueue => ((h.core.queued_iff hp).mp hqueue).1 hblocked
  have hsame : t.setState .blocked = id t := by
    rw [Thread.setState, ← hblocked]
    rfl
  have hlib : (lib.modifyThread p (Thread.setState .blocked)).setQueue (lib.readyQueue.erase p) =
      lib := by
    rw [List.erase_of_not_mem hout, modifyThread_congr hp.2 hsame, modifyThread, Option.map_id,
      id, Function.update_eq_self]
    rfl
  rw [← scheduler_unqueued h hp (Thread.setState .blocked) (f := Task.setBlocked true)
    (fun _ => rfl) rfl, hlib]

theorem refused_of_effect {op : Op} {message : String} (hrefused : Refused lib op message) :
    lib.scheduler.perform op = some (.failed message, lib.scheduler) := by
  cases hrefused with
  | nullEntryPoint => rfl
  | maxThreads hnull htaken =>
      rw [Scheduler.perform, if_neg hnull, freeId_eq_none h htaken]
  | terminate hnone => rw [Scheduler.perform, find_eq_none_iff.mpr hnone]
  | blockMain => rfl
  | block hmain hnone => rw [Scheduler.perform, if_neg hmain, find_eq_none_iff.mpr hnone]
  | resume hnone => rw [Scheduler.perform, find_eq_none_iff.mpr hnone]
  | sleep ht hmain =>
      rw [Scheduler.perform, running_eq h ht, Option.bind_eq_bind, Option.bind_some, if_pos hmain]
  | getQuantums hnone => rw [Scheduler.perform, find_eq_none_iff.mpr hnone]

include hcontexts

/-- The running thread blocks itself or goes to sleep. -/
theorem handOver_left (change : Thread → Thread) {f : Task → Task} {next : Address}
    {rest : List Address} (ht : lib.Member lib.runningThread t)
    (hid : ∀ t, (change t).id = t.id) (hcounter : (change t).quantumCounter = t.quantumCounter)
    (hchange : (change t).task = f t.task) (hzero : t.id ≠ 0)
    (hqueue : lib.readyQueue = lib.runningThread :: next :: rest)
    (hstate : (change t).state ≠ .running) (hnot : ¬ (change t).Runnable) {lib' : ThreadLibrary}
    (hlib : lib' = ((lib.modifyThread lib.runningThread change).setQueue
      (next :: rest)).switchTo .blockHandler next) :
    lib.scheduler.handOver t.id ((lib.scheduler.change t.id f).unqueue t.id) =
        some (lib'.landing next, (lib'.land next).scheduler) ∧ Contexts (lib'.land next) := by
  have hview := scheduler_unqueued h ht change hid hchange
  rw [hqueue, List.erase_cons_head] at hview
  rw [handOver_running hqueue ht, ← hview, hlib]
  apply dispatch_switchTo (h.core_left ht (hid t) hzero hqueue hstate hnot) rfl
    (SameThreads.member_modify ht change)
  · rw [hcounter]
    exact hcontexts.counter ht
  · intro q u hq hne
    rcases (SameThreads.member_modify_iff ht).mp hq with ⟨heq, -⟩ | ⟨-, hq⟩
    · exact absurd heq hne
    · exact hcontexts.saved hq hne
  · simp

/-- The running thread terminates itself. -/
theorem handOver_terminated {index : Nat} {next : Address} {rest : List Address}
    (ht : lib.Member lib.runningThread t) (hid : t.id = asInt index) (hindex : index < maxThreadNum)
    (hzero : t.id ≠ 0) (hqueue : lib.readyQueue = lib.runningThread :: next :: rest)
    {lib' : ThreadLibrary}
    (hlib : lib' = (((lib.removeThread lib.runningThread index).setPending
      lib.runningThread).modifyThread next (Thread.setState .running)).begin next) :
    lib.scheduler.handOver t.id (lib.scheduler.remove t.id) =
        some (lib'.landing next, (lib'.land next).scheduler) ∧ Contexts (lib'.land next) := by
  have hfront : (lib.readyQueue.erase lib.runningThread).head? = some next := by
    rw [hqueue, List.erase_cons_head, List.head?_cons]
  have hview : ((lib.removeThread lib.runningThread index).setPending
      lib.runningThread).scheduler = lib.scheduler.remove t.id :=
    scheduler_removeThread h ht index
  rw [handOver_running hqueue ht, ← hview, hlib]
  apply dispatch_startRunning (h.core_terminated ht hid hindex hzero) hfront
  rintro q u ⟨hall, hu⟩
  have hq := h.core.all_nodup.mem_erase_iff.mp hall
  exact hcontexts.saved ⟨hq.2, hu⟩ hq.1

theorem dispatch_ticked {next : Address} {rest rest' : List Address}
    (hqueue : lib.readyQueue = lib.runningThread :: rest)
    (hrotated : rest ++ woken lib ++ [lib.runningThread] = next :: rest') {lib' : ThreadLibrary}
    (hlib : lib' = (((lib.countdown lib.allThreads).modifyThread lib.runningThread
      (Thread.setState .ready)).setQueue (next :: rest')).switchTo .timeHandler next) :
    lib.scheduler.rotate.dispatch = some (lib'.landing next, (lib'.land next).scheduler) ∧
      Contexts (lib'.land next) := by
  obtain ⟨t, ht, -⟩ := h.running_countdown hqueue hrotated
  obtain ⟨u, hu, rfl⟩ := (Core.member_countdown_iff lib).mp ht
  rw [← scheduler_ticked h hqueue hrotated, hlib]
  apply dispatch_switchTo (h.core_ticked hqueue hrotated) rfl
    (SameThreads.member_modify ht (Thread.setState .ready))
  · change u.countdown.quantumCounter ≠ 0
    rw [steady_quantumCounter.countdown]
    exact hcontexts.counter hu
  · intro q v hq hne
    rcases (SameThreads.member_modify_iff ht).mp hq with ⟨heq, -⟩ | ⟨-, hq⟩
    · exact absurd heq hne
    · obtain ⟨w, hw, rfl⟩ := (Core.member_countdown_iff lib).mp hq
      exact (hcontexts.saved hw hne).countdown
  · simp

theorem view_of_effect {op : Op} {outcome : Outcome} (heffect : Effect lib op outcome lib') :
    lib.scheduler.perform op = some (outcome, lib'.scheduler) ∧ Contexts lib' := by
  cases heffect with
  | refused hrefused => exact ⟨refused_of_effect h hrefused, hcontexts⟩
  | spawned hnull hindex havailable htaken =>
      constructor
      · rw [Scheduler.perform, if_neg hnull, freeId_eq h hindex havailable htaken,
          scheduler_addThread h]
      · intro q u hq
        rcases h.core.member_addThread_iff.mp hq with ⟨rfl, rfl⟩ | hq
        · obtain ⟨t, ht⟩ := running_member h
          have hne : lib.allocated + 1 ≠ lib.runningThread := by
            intro heq
            rw [← heq] at ht
            exact Option.some_ne_none t (ht.2.symm.trans h.core.allocated_fresh)
          exact (if_neg hne).mpr fun hcounter => absurd rfl hcounter
        · exact hcontexts q u hq
  | terminated hp hid hindex hzero hne =>
      constructor
      · rw [Scheduler.perform, find_member h.core hp, scheduler_terminated h hp]
        exact handOver_other h hp hne
      · rintro q u ⟨hall, hu⟩
        have hq := h.core.all_nodup.mem_erase_iff.mp hall
        rw [Core.deleteObject_threads, if_neg hq.1] at hu
        exact hcontexts q u ⟨hq.2, hu⟩
  | terminatedSelf ht hid hindex hzero hqueue hlib =>
      rw [Scheduler.perform, find_member h.core ht]
      exact handOver_terminated h hcontexts ht hid hindex hzero hqueue hlib
  | @blocked p t hp hzero hne hstate =>
      constructor
      · rw [Scheduler.perform, if_neg hzero, find_member h.core hp,
          scheduler_unqueued h hp (Thread.setState .blocked) (f := Task.setBlocked true)
            (fun _ => rfl) rfl]
        exact handOver_other h hp hne
      · exact hcontexts.quiet _ _ (fun _ => rfl) fun _ => rfl
  | blockedAlready hp hzero hne hstate =>
      refine ⟨?_, hcontexts⟩
      rw [Scheduler.perform, if_neg hzero, find_member h.core hp, blocked_again h hp hstate]
      exact handOver_other h hp hne
  | blockedSelf ht hzero hqueue hlib =>
      rw [Scheduler.perform, if_neg hzero, find_member h.core ht]
      exact handOver_left h hcontexts (Thread.setState .blocked) (f := Task.setBlocked true) ht
        (fun _ => rfl) rfl rfl hzero hqueue (by simp [Thread.setState])
        (fun hrunnable => hrunnable.1 rfl) hlib
  | resumed hp hblocked =>
      constructor
      · rw [Scheduler.perform, find_member h.core hp, scheduler_resumed h hp]
        have hflag := beq_iff_eq.mpr hblocked
        exact congrArg (fun s => some (Outcome.returned 0, s)) (if_pos hflag)
      · exact hcontexts.quiet _ _ (fun _ => rfl) fun _ => rfl
  | resumedAlready hp hblocked =>
      refine ⟨?_, hcontexts⟩
      rw [Scheduler.perform, find_member h.core hp]
      have hflag := mt beq_iff_eq.mp hblocked
      exact congrArg (fun s => some (Outcome.returned 0, s)) (if_neg hflag)
  | @slept t numQuantums _ _ _ ht hzero hqueue hlib =>
      have hnot : ¬ (t.fallAsleep numQuantums).Runnable := by
        intro hrunnable
        cases hrunnable.2
      have hready : (State.ready == State.blocked) = (t.state == State.blocked) := by
        rw [((h.core.running_iff ht).mpr rfl)]
        rfl
      have htask : (t.fallAsleep numQuantums).task = t.task.fallAsleep numQuantums := by
        change { t.task.fallAsleep numQuantums with blocked := State.ready == State.blocked } = _
        rw [hready]
        rfl
      rw [Scheduler.perform, running_eq h ht, Option.bind_eq_bind, Option.bind_some, if_neg hzero]
      exact handOver_left h hcontexts (Thread.fallAsleep numQuantums) ht (fun _ => rfl) rfl htask
        hzero hqueue (by simp [Thread.fallAsleep, Thread.setState]) hnot hlib
  | gotTid ht =>
      refine ⟨?_, hcontexts⟩
      rw [Scheduler.perform, running_eq h ht, Option.map_some]
  | gotTotalQuantums => exact ⟨rfl, hcontexts⟩
  | gotQuantums hp =>
      refine ⟨?_, hcontexts⟩
      rw [Scheduler.perform, find_member h.core hp]
      rfl
  | ticked hqueue hrotated hlib => exact dispatch_ticked h hcontexts hqueue hrotated hlib

end Step

/-! ### Runs -/

/-- A library between two calls of a run. -/
structure Viewed (lib : ThreadLibrary) : Prop where
  scheduled : Scheduled lib
  contexts : Contexts lib

theorem scheduler_initialized : ThreadLibrary.initialized.scheduler = .initial := rfl

theorem viewed_initialized : Viewed .initialized := by
  refine ⟨scheduled_initialized, ?_⟩
  intro p t hp
  obtain ⟨rfl, rfl⟩ := member_initialized hp
  exact (if_pos rfl).mpr Nat.one_ne_zero

variable {answer : Op × Outcome} {answers : List (Op × Outcome)} {s : Scheduler}

/-- The scheduler follows the library. -/
theorem Viewed.step (h : Viewed lib) (hstep : Answers lib answer lib') :
    Scheduler.Answers lib.scheduler answer lib'.scheduler ∧ Viewed lib' := by
  obtain ⟨heffect, hscheduled⟩ := h.scheduled.of_perform hstep.1 hstep.2
  obtain ⟨hview, hcontexts⟩ := view_of_effect h.scheduled h.contexts heffect
  exact ⟨⟨hstep.1, hview⟩, hscheduled, hcontexts⟩

/-- The library follows the scheduler. -/
theorem Viewed.exists_step (h : Viewed lib) (hstep : Scheduler.Answers lib.scheduler answer s) :
    ∃ lib', Answers lib answer lib' ∧ lib'.scheduler = s := by
  obtain ⟨op, outcome⟩ := answer
  obtain ⟨hmain, hperform⟩ := hstep
  obtain ⟨outcome', lib', hrun, heffect⟩ := perform_effect h.scheduled hmain
  have hview := (view_of_effect h.scheduled h.contexts heffect).1
  obtain ⟨rfl, rfl⟩ := Prod.mk.inj (Option.some.inj (hperform.symm.trans hview))
  exact ⟨lib', ⟨hmain, hrun⟩, rfl⟩

theorem Viewed.run (h : Viewed lib) (hrun : Run Answers lib answers lib') :
    Run Scheduler.Answers lib.scheduler answers lib'.scheduler ∧ Viewed lib' := by
  induction hrun with
  | start => exact ⟨.start, h⟩
  | next _ hstep ih =>
      obtain ⟨hview, hviewed⟩ := ih
      obtain ⟨hnext, hviewed'⟩ := hviewed.step hstep
      exact ⟨hview.next hnext, hviewed'⟩

theorem Viewed.exists_run (h : Viewed lib) (hrun : Run Scheduler.Answers lib.scheduler answers s) :
    ∃ lib', Run Answers lib answers lib' ∧ lib'.scheduler = s := by
  induction hrun with
  | start => exact ⟨lib, .start, rfl⟩
  | next _ hstep ih =>
      obtain ⟨middle, hmiddle, rfl⟩ := ih
      obtain ⟨lib', hnext, hview⟩ := (h.run hmiddle).2.exists_step hstep
      exact ⟨lib', hmiddle.next hnext, hview⟩

/-- From `uthread_init` on, the library and the scheduler give the same answers to the same
operations. -/
theorem same_traces {start : ThreadLibrary} (hinit : Initialized start)
    (answers : List (Op × Outcome)) :
    (∀ lib, Run Answers start answers lib →
      Run Scheduler.Answers .initial answers lib.scheduler) ∧
    ∀ s, Run Scheduler.Answers .initial answers s →
      ∃ lib, Run Answers start answers lib ∧ lib.scheduler = s := by
  rw [initialized_iff.mp hinit, ← scheduler_initialized]
  exact ⟨fun _ hrun => (viewed_initialized.run hrun).1,
    fun _ hrun => viewed_initialized.exists_run hrun⟩

/-- The main thread sleeps in vain, a thread is entered, terminates itself, and the main thread is
resumed. -/
theorem same_traces_entered : ∃ lib, Run Answers .initialized
    [(.sleep 1, .failed "thread library error: can't put the main thread to sleep \n"),
      (.spawn 7, .returned 1), (.tick, .entered 7), (.terminate 1, .resumed)] lib := by
  have hrun : Run Scheduler.Answers .initial
      ([(.sleep 1, .failed "thread library error: can't put the main thread to sleep \n")] ++
        [(.spawn 7, .returned 1)] ++ [(.tick, .entered 7)] ++ [(.terminate 1, .resumed)]) _ :=
    (((Run.start.next ⟨by decide, rfl⟩).next ⟨by decide, rfl⟩).next ⟨by decide, rfl⟩).next
      ⟨by decide, rfl⟩
  obtain ⟨lib, hlib, -⟩ := (same_traces (initialized_iff.mpr rfl) _).2 _ hrun
  exact ⟨lib, hlib⟩

end OsExercises.Uthreads
