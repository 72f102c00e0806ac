import OsExercises.Uthreads.Invariant
import Mathlib.Data.List.Nodup

/-!
# What the calls do to the library

Each change of the library as a function of its state: a thread is added, removed, woken or switched
to. They keep `Core`; a switch goes through a state in which nobody is running.
-/

namespace OsExercises.Uthreads

open Function (update)

/-- What `sleep_check` does to a thread. -/
def Thread.countdown (t : Thread) : Thread :=
  if t.sleep then
    if t.timeToSleep = 1 then t.decreaceTimeToSleep.setSleep false else t.decreaceTimeToSleep
  else t

/-- The thread that `sleep_check` puts into the queue. -/
def Thread.wakesUp (t : Thread) : Bool := t.sleep && t.timeToSleep == 1 && t.state == .ready

/-- What `uthread_sleep` does to the running thread. -/
def Thread.fallAsleep (numQuantums : Int32) (t : Thread) : Thread :=
  ((t.setSleep true).setTimeToSleep numQuantums.toInt).setState .ready

namespace ThreadLibrary

variable (lib : ThreadLibrary)

def addThread (index : Nat) (entryPoint : Address) : ThreadLibrary :=
  { lib with
    readyQueue := lib.readyQueue ++ [lib.allocated + 1]
    allThreads := lib.allThreads ++ [lib.allocated + 1]
    availableId := lib.availableId.set index true
    threads := update lib.threads (lib.allocated + 1) (some (Thread.new (asInt index) entryPoint))
    allocated := lib.allocated + 1 }

/-- The thread leaves the lists and the id table; its object stays. -/
def removeThread (p : Address) (index : Nat) : ThreadLibrary :=
  { lib with
    readyQueue := lib.readyQueue.erase p
    allThreads := lib.allThreads.erase p
    availableId := lib.availableId.set index false }

def deleteObject (p : Address) : ThreadLibrary :=
  { lib with threads := update lib.threads p none }

/-- The object waits for the next thread that comes back through a handler. -/
def setPending (p : Address) : ThreadLibrary := { lib with threadToDelete := p, d := true }

/-- The threads of a list are counted down. -/
def countdown (ps : List Address) : ThreadLibrary :=
  { lib with
    threads := fun p => if p ∈ ps then (lib.threads p).map Thread.countdown else lib.threads p
    readyQueue := lib.readyQueue ++ ps.filter fun p => (lib.threads p).any Thread.wakesUp }

/-- The quantum of a thread begins. -/
def begin (next : Address) : ThreadLibrary :=
  ({ lib with runningThread := next, totalQuantum := lib.totalQuantum + 1 }).modifyThread next
    Thread.increaceQuantumCounter

/-- The running thread is left through a handler. -/
def switchTo (env : Env) (next : Address) : ThreadLibrary :=
  ((lib.modifyThread next (Thread.setState .running)).modifyThread lib.runningThread
    (Thread.saveEnv env)).begin next

/-- Where a jump to a thread leads. -/
def landing (next : Address) : Outcome :=
  match (lib.threads next).map Thread.env with
  | some (.entry entryPoint) => .entered entryPoint
  | _ => .resumed

/-- A thread that comes back through a handler deletes the pending object. -/
def land (next : Address) : ThreadLibrary :=
  match (lib.threads next).map Thread.env with
  | some (.entry _) => lib
  | _ =>
      if lib.d then
        { lib.deleteObject lib.threadToDelete with threadToDelete := null, d := false }
      else lib

end ThreadLibrary

open ThreadLibrary

/-- The outcome is a jump to the thread that runs next. -/
def Outcome.switches : Outcome → Bool
  | .entered _ => true
  | .resumed => true
  | _ => false

theorem landing_switches (lib : ThreadLibrary) (next : Address) :
    (lib.landing next).switches = true := by
  unfold landing
  split <;> rfl

theorem landing_ne (lib : ThreadLibrary) (next : Address) {outcome : Outcome}
    (hstays : outcome.switches = false) : lib.landing next ≠ outcome := by
  rintro rfl
  rw [landing_switches] at hstays
  cases hstays

namespace Core

variable {lib lib' : ThreadLibrary} {running running' : Option Address}

/-! ### Threads that come and go -/

theorem allocated_fresh (h : Core lib running) : lib.threads (lib.allocated + 1) = none := by
  by_contra hsome
  obtain ⟨t, ht⟩ := Option.ne_none_iff_exists'.mp hsome
  exact Nat.not_succ_le_self _ (h.allocated ht)

theorem member_addThread_iff (h : Core lib running) {index : Nat} {entryPoint p : Address}
    {t : Thread} :
    (lib.addThread index entryPoint).Member p t ↔
      (p = lib.allocated + 1 ∧ t = Thread.new (asInt index) entryPoint) ∨ lib.Member p t := by
  have hfresh := h.allocated_fresh
  by_cases hp : p = lib.allocated + 1
  · subst hp
    simp [Member, addThread, hfresh, eq_comm]
  · simp [Member, addThread, hp]

theorem addThread (h : Core lib running) (hrunning : ∀ p, running = some p → p ∈ lib.allThreads)
    {index : Nat} {entryPoint : Address} (hindex : index < maxThreadNum)
    (havailable : lib.availableId[index]? = some false) :
    Core (lib.addThread index entryPoint) running := by
  have hmember : ∀ {p t}, (lib.addThread index entryPoint).Member p t ↔
      (p = lib.allocated + 1 ∧ t = Thread.new (asInt index) entryPoint) ∨ lib.Member p t :=
    h.member_addThread_iff
  have hfresh : lib.allocated + 1 ∉ lib.allThreads := by
    intro hall
    obtain ⟨t, ht⟩ := h.alive hall
    rw [h.allocated_fresh] at ht
    cases ht
  have hfree : ∀ {p t}, lib.Member p t → t.id ≠ asInt index := by
    intro p t hp hid
    have htaken := (h.id_table hindex).mpr ⟨p, t, hp, hid⟩
    rw [havailable] at htaken
    cases htaken
  constructor
  case all_nodup =>
    exact h.all_nodup.append (List.nodup_singleton _) (by simpa using hfresh)
  case queue_nodup =>
    refine h.queue_nodup.append (List.nodup_singleton _) ?_
    simpa using fun hqueue => hfresh (h.queue_subset hqueue)
  case alive =>
    intro p hp
    rcases List.mem_append.mp hp with hall | hnew
    · obtain ⟨t, ht⟩ := h.alive hall
      exact ⟨t, (hmember.mpr (Or.inr ⟨hall, ht⟩)).2⟩
    · exact ⟨_, (hmember.mpr (Or.inl ⟨List.mem_singleton.mp hnew, rfl⟩)).2⟩
  case queue_subset =>
    intro p hp
    exact List.mem_append.mpr ((List.mem_append.mp hp).imp_left fun hqueue => h.queue_subset hqueue)
  case queued_iff =>
    intro p t hp
    rcases hmember.mp hp with ⟨rfl, rfl⟩ | hp
    · simp [ThreadLibrary.addThread, Thread.Runnable, Thread.new]
    · have hne : p ≠ lib.allocated + 1 := fun heq => hfresh (heq ▸ hp.1)
      simpa [ThreadLibrary.addThread, hne] using h.queued_iff hp
  case running_iff =>
    intro p t hp
    rcases hmember.mp hp with ⟨rfl, rfl⟩ | hp
    · have hne : running ≠ some (lib.allocated + 1) := fun heq => hfresh (hrunning _ heq)
      simp [Thread.new, hne]
    · exact h.running_iff hp
  case main =>
    obtain ⟨p, t, hp, hmain⟩ := h.main
    exact ⟨p, t, hmember.mpr (Or.inr hp), hmain⟩
  case id_injective =>
    intro p q t u hp hq hid
    rcases hmember.mp hp with ⟨rfl, rfl⟩ | hp
    · rcases hmember.mp hq with ⟨rfl, rfl⟩ | hq
      · rfl
      · exact absurd hid.symm (hfree hq)
    · rcases hmember.mp hq with ⟨rfl, rfl⟩ | hq
      · exact absurd hid (hfree hp)
      · exact h.id_injective hp hq hid
  case table_length => simpa [ThreadLibrary.addThread] using h.table_length
  case id_table =>
    intro i hi
    have hlength := h.table_length
    by_cases heq : i = index
    · subst heq
      simp only [ThreadLibrary.addThread]
      rw [List.getElem?_set_self (by omega)]
      exact iff_of_true rfl ⟨_, _, hmember.mpr (Or.inl ⟨rfl, rfl⟩), rfl⟩
    · simp only [ThreadLibrary.addThread]
      rw [List.getElem?_set_ne (Ne.symm heq), h.id_table hi]
      constructor
      · rintro ⟨p, t, hp, hid⟩
        exact ⟨p, t, hmember.mpr (Or.inr hp), hid⟩
      · rintro ⟨p, t, hp, hid⟩
        rcases hmember.mp hp with ⟨rfl, rfl⟩ | hp
        · have hsame := (asInt_inj (hindex.trans (by decide)) (hi.trans (by decide))).mp hid
          exact absurd hsame.symm heq
        · exact ⟨p, t, hp, hid⟩
  case id_range =>
    intro p t hp
    rcases hmember.mp hp with ⟨rfl, rfl⟩ | hp
    · exact ⟨index, hindex, rfl⟩
    · exact h.id_range hp
  case null_dead =>
    simpa [ThreadLibrary.addThread, null] using h.null_dead
  case allocated =>
    intro p t hp
    by_cases heq : p = lib.allocated + 1
    · exact heq.le
    · simp only [ThreadLibrary.addThread, Function.update_of_ne heq] at hp
      exact (h.allocated hp).trans (Nat.le_succ _)
  case pending =>
    intro hd
    obtain ⟨hout, t, ht⟩ := h.pending hd
    have hne : lib.threadToDelete ≠ lib.allocated + 1 := by
      intro heq
      rw [heq, h.allocated_fresh] at ht
      cases ht
    refine ⟨by simp [ThreadLibrary.addThread, hout, hne], t, ?_⟩
    simp [ThreadLibrary.addThread, hne, ht]

theorem removeThread (h : Core lib running) {p : Address} {t : Thread} (hp : lib.Member p t)
    {index : Nat} (hindex : index < maxThreadNum) (hid : t.id = asInt index) (hzero : t.id ≠ 0)
    (hrunning : ∀ q, q ≠ p → (running' = some q ↔ running = some q)) :
    Core (lib.removeThread p index) running' := by
  have hmember : ∀ {q u}, (lib.removeThread p index).Member q u ↔ q ≠ p ∧ lib.Member q u := by
    intro q u
    unfold Member
    rw [ThreadLibrary.removeThread, h.all_nodup.mem_erase_iff, and_assoc]
  constructor
  case all_nodup => exact h.all_nodup.erase p
  case queue_nodup => exact h.queue_nodup.erase p
  case alive => exact fun hq => h.alive (List.mem_of_mem_erase hq)
  case queue_subset =>
    intro q hq
    have hq' := (h.queue_nodup.mem_erase_iff).mp hq
    exact (h.all_nodup.mem_erase_iff).mpr ⟨hq'.1, h.queue_subset hq'.2⟩
  case queued_iff =>
    intro q u hq
    obtain ⟨hne, hq⟩ := hmember.mp hq
    rw [← h.queued_iff hq, ThreadLibrary.removeThread, h.queue_nodup.mem_erase_iff]
    exact and_iff_right hne
  case running_iff =>
    intro q u hq
    obtain ⟨hne, hq⟩ := hmember.mp hq
    exact (h.running_iff hq).trans (hrunning q hne).symm
  case main =>
    obtain ⟨q, u, hq, hu, hrunnable⟩ := h.main
    refine ⟨q, u, hmember.mpr ⟨?_, hq⟩, hu, hrunnable⟩
    rintro rfl
    rw [hp.unique hq] at hzero
    exact hzero hu
  case id_injective =>
    exact fun hq hq' => h.id_injective (hmember.mp hq).2 (hmember.mp hq').2
  case table_length => exact (List.length_set).trans h.table_length
  case id_table =>
    intro i hi
    have hlength := h.table_length
    simp only [ThreadLibrary.removeThread]
    by_cases heq : i = index
    · subst heq
      rw [List.getElem?_set_self (by omega)]
      refine iff_of_false (by simp) ?_
      rintro ⟨q, u, hq, hqid⟩
      obtain ⟨hne, hq⟩ := hmember.mp hq
      exact hne (h.id_injective hq hp (hqid.trans hid.symm))
    · rw [List.getElem?_set_ne (Ne.symm heq), h.id_table hi]
      constructor
      · rintro ⟨q, u, hq, hqid⟩
        refine ⟨q, u, hmember.mpr ⟨?_, hq⟩, hqid⟩
        rintro rfl
        rw [hq.unique hp, hid] at hqid
        exact heq ((asInt_inj (hindex.trans (by decide)) (hi.trans (by decide))).mp hqid).symm
      · rintro ⟨q, u, hq, hqid⟩
        exact ⟨q, u, (hmember.mp hq).2, hqid⟩
  case id_range => exact fun hq => h.id_range (hmember.mp hq).2
  case null_dead => exact h.null_dead
  case allocated => exact h.allocated
  case pending =>
    intro hd
    obtain ⟨hout, hobject⟩ := h.pending hd
    exact ⟨fun hall => hout (List.mem_of_mem_erase hall), hobject⟩

/-! ### Objects outside the lists -/

/-- What happens to objects that are no threads of the library does not matter. -/
theorem of_sameLists (h : Core lib running) (hall : lib'.allThreads = lib.allThreads)
    (hqueue : lib'.readyQueue = lib.readyQueue) (htable : lib'.availableId = lib.availableId)
    (halloc : lib'.allocated = lib.allocated)
    (hthreads : ∀ p ∈ lib.allThreads, lib'.threads p = lib.threads p)
    (hold : ∀ p t, lib'.threads p = some t → lib.threads p = some t)
    (hpending : lib'.d = true →
      lib'.threadToDelete ∉ lib.allThreads ∧ lib'.Alive lib'.threadToDelete) :
    Core lib' running := by
  have hmember : ∀ {p t}, lib'.Member p t ↔ lib.Member p t := by
    intro p t
    unfold Member
    rw [hall]
    exact and_congr_right fun hp => by rw [hthreads p hp]
  constructor
  case all_nodup => exact hall ▸ h.all_nodup
  case queue_nodup => exact hqueue ▸ h.queue_nodup
  case alive =>
    intro p hp
    rw [hall] at hp
    obtain ⟨t, ht⟩ := h.alive hp
    exact ⟨t, (hthreads p hp).trans ht⟩
  case queue_subset =>
    intro p hp
    rw [hqueue] at hp
    exact hall ▸ h.queue_subset hp
  case queued_iff =>
    intro p t hp
    rw [hqueue]
    exact h.queued_iff (hmember.mp hp)
  case running_iff => exact fun hp => h.running_iff (hmember.mp hp)
  case main =>
    obtain ⟨p, t, hp, hmain⟩ := h.main
    exact ⟨p, t, hmember.mpr hp, hmain⟩
  case id_injective => exact fun hp hq => h.id_injective (hmember.mp hp) (hmember.mp hq)
  case table_length => exact htable ▸ h.table_length
  case id_table =>
    intro i hi
    simp only [htable, hmember]
    exact h.id_table hi
  case id_range => exact fun hp => h.id_range (hmember.mp hp)
  case null_dead =>
    by_contra hsome
    obtain ⟨t, ht⟩ := Option.ne_none_iff_exists'.mp hsome
    have hnull := hold _ _ ht
    rw [h.null_dead] at hnull
    cases hnull
  case allocated =>
    intro p t hp
    rw [halloc]
    exact h.allocated (hold p t hp)
  case pending =>
    intro hd
    rw [hall]
    exact hpending hd

theorem deleteObject_threads (lib : ThreadLibrary) (p q : Address) :
    (lib.deleteObject p).threads q = if q = p then none else lib.threads q :=
  Function.update_apply lib.threads p none q

theorem deleteObject (h : Core lib running) {p : Address} (hout : p ∉ lib.allThreads)
    (hpending : lib.d = true → lib.threadToDelete ≠ p) : Core (lib.deleteObject p) running := by
  refine h.of_sameLists rfl rfl rfl rfl ?_ ?_ ?_
  · intro q hq
    rw [deleteObject_threads, if_neg]
    rintro rfl
    exact hout hq
  · intro q t hq
    rw [deleteObject_threads] at hq
    split at hq
    · cases hq
    · exact hq
  · intro hd
    obtain ⟨hall, t, ht⟩ := h.pending hd
    exact ⟨hall, t, (deleteObject_threads lib p _).trans ((if_neg (hpending hd)).trans ht)⟩

theorem setPending (h : Core lib running) {p : Address} (hout : p ∉ lib.allThreads)
    (halive : lib.Alive p) : Core (lib.setPending p) running :=
  h.of_sameLists rfl rfl rfl rfl (fun _ _ => rfl) (fun _ _ => id) fun _ => ⟨hout, halive⟩

theorem land (h : Core lib running) (next : Address) : Core (lib.land next) running := by
  unfold ThreadLibrary.land
  split
  · exact h
  · split
    · rename_i hd
      have hout := (h.pending hd).1
      refine h.of_sameLists rfl rfl rfl rfl ?_ ?_ ?_
      · intro q hq
        refine (deleteObject_threads lib _ q).trans (if_neg ?_)
        rintro rfl
        exact hout hq
      · intro q t hq
        change (lib.deleteObject lib.threadToDelete).threads q = some t at hq
        rw [deleteObject_threads] at hq
        split at hq
        · cases hq
        · exact hq
      · intro hfalse
        cases hfalse
    · exact h

/-! ### Waking and switching -/

theorem countdown_id (t : Thread) : t.countdown.id = t.id := by
  unfold Thread.countdown
  split
  · split <;> rfl
  · rfl

theorem countdown_state (t : Thread) : t.countdown.state = t.state := by
  unfold Thread.countdown
  split
  · split <;> rfl
  · rfl

theorem countdown_sleep (t : Thread) :
    t.countdown.sleep = (t.sleep && !decide (t.timeToSleep = 1)) := by
  unfold Thread.countdown
  split
  · rename_i hsleep
    split
    · rename_i htime
      simp [Thread.setSleep, htime]
    · rename_i htime
      simp [Thread.decreaceTimeToSleep, hsleep, htime]
  · rename_i hsleep
    rw [Bool.not_eq_true] at hsleep
    rw [hsleep, Bool.false_and]

theorem member_countdown_iff (lib : ThreadLibrary) {p : Address} {t : Thread} :
    (lib.countdown lib.allThreads).Member p t ↔ ∃ u, lib.Member p u ∧ t = u.countdown := by
  constructor
  · rintro ⟨hall, ht⟩
    change p ∈ lib.allThreads at hall
    change (if p ∈ lib.allThreads then _ else _) = some t at ht
    rw [if_pos hall, Option.map_eq_some_iff] at ht
    obtain ⟨u, hu, rfl⟩ := ht
    exact ⟨u, ⟨hall, hu⟩, rfl⟩
  · rintro ⟨u, ⟨hall, hu⟩, rfl⟩
    refine ⟨hall, ?_⟩
    change (if p ∈ lib.allThreads then _ else _) = _
    rw [if_pos hall, hu, Option.map_some]

theorem sameThreads_countdown (lib : ThreadLibrary) :
    SameThreads lib (lib.countdown lib.allThreads) where
  allThreads := rfl
  availableId := rfl
  d := rfl
  threadToDelete := rfl
  allocated := rfl
  member hp := ⟨_, (member_countdown_iff lib).mpr ⟨_, hp, rfl⟩, countdown_id _⟩
  outside hp := if_neg hp

/-- Exactly the threads that wake up and are ready join the queue. -/
theorem countdown (h : Core lib running) (hrunning : ∀ p, running = some p → p ∈ lib.readyQueue) :
    Core (lib.countdown lib.allThreads) running := by
  have hwakes : ∀ {p t}, lib.Member p t →
      (p ∈ lib.allThreads.filter (fun p => (lib.threads p).any Thread.wakesUp) ↔
        t.wakesUp = true) := by
    intro p t hp
    rw [List.mem_filter, hp.2]
    exact and_iff_right hp.1
  -- a sleeping thread is not in the queue and not running
  have hasleep : ∀ {p t}, lib.Member p t → t.sleep = true →
      p ∉ lib.readyQueue ∧ t.state ≠ .running := by
    intro p t hp hsleep
    have hout : p ∉ lib.readyQueue := by
      rw [h.queued_iff hp, Thread.Runnable, hsleep]
      exact fun hboth => absurd hboth.2 (by decide)
    exact ⟨hout, fun hstate => hout (hrunning p ((h.running_iff hp).mp hstate))⟩
  refine h.of_sameThreads (sameThreads_countdown lib) ?_ ?_ ?_ ?_ ?_
  · refine h.queue_nodup.append (h.all_nodup.filter _) ?_
    intro p hqueue hfilter
    obtain ⟨t, hp⟩ := h.member_of_queue hqueue
    have hwake := (hwakes hp).mp hfilter
    simp only [Thread.wakesUp, Bool.and_eq_true] at hwake
    exact (hasleep hp hwake.1.1).1 hqueue
  · intro p hp
    rcases List.mem_append.mp hp with hqueue | hfilter
    · exact h.queue_subset hqueue
    · exact (List.mem_filter.mp hfilter).1
  · intro p t hp
    obtain ⟨u, hu, rfl⟩ := (member_countdown_iff lib).mp hp
    change p ∈ lib.readyQueue ++ _ ↔ _
    rw [List.mem_append, hwakes hu, h.queued_iff hu, Thread.Runnable, Thread.Runnable,
      countdown_state, countdown_sleep]
    cases hsleep : u.sleep with
    | false => simp [Thread.wakesUp, hsleep]
    | true =>
        have hstate := (hasleep hu hsleep).2
        cases hcase : u.state <;> simp_all [Thread.wakesUp]
  · intro p t hp
    obtain ⟨u, hu, rfl⟩ := (member_countdown_iff lib).mp hp
    rw [countdown_state, h.running_iff hu]
  · intro p t hp hzero
    obtain ⟨u, hu, rfl⟩ := (member_countdown_iff lib).mp hp
    have hrunnable := h.main_runnable hu ((countdown_id u).symm.trans hzero)
    rw [Thread.Runnable, countdown_state, countdown_sleep, hrunnable.2]
    exact ⟨hrunnable.1, rfl⟩

/-- The running thread stops running. -/
theorem leave (h : Core lib (some lib.runningThread)) {t : Thread} {change : Thread → Thread}
    (hp : lib.Member lib.runningThread t) {queue : List Address} (hid : (change t).id = t.id)
    (hnodup : queue.Nodup)
    (hothers : ∀ q, q ≠ lib.runningThread → (q ∈ queue ↔ q ∈ lib.readyQueue))
    (hqueued : lib.runningThread ∈ queue ↔ (change t).Runnable)
    (hstate : (change t).state ≠ .running) (hmain : t.id = 0 → (change t).Runnable) :
    Core ((lib.modifyThread lib.runningThread change).setQueue queue) none := by
  refine h.update hp hid hnodup hothers hqueued ?_ ?_ hmain
  · exact iff_of_false hstate (by simp)
  · intro q hne
    exact iff_of_false (by simp) fun heq => hne (Option.some.inj heq).symm

theorem startRunning (h : Core lib none) {next : Address} {t : Thread} (hp : lib.Member next t)
    (hqueue : next ∈ lib.readyQueue) :
    Core (lib.modifyThread next (Thread.setState .running)) (some next) := by
  have hrunnable := (h.queued_iff hp).mp hqueue
  have hafter : (t.setState .running).Runnable := ⟨by simp [Thread.setState], hrunnable.2⟩
  change Core ((lib.modifyThread next (Thread.setState .running)).setQueue lib.readyQueue) (some next)
  refine h.update hp rfl h.queue_nodup (fun _ _ => Iff.rfl) ?_ ?_ ?_ (fun _ => hafter)
  · exact iff_of_true hqueue hafter
  · exact iff_of_true rfl rfl
  · exact fun q hne => iff_of_false (fun heq => hne (Option.some.inj heq).symm) (by simp)

theorem begin (h : Core lib running) {next : Address} {t : Thread} (hp : lib.Member next t) :
    Core (lib.begin next) running := by
  have hcore : Core { lib with runningThread := next, totalQuantum := lib.totalQuantum + 1 } running :=
    h.of_sameLists rfl rfl rfl rfl (fun _ _ => rfl) (fun _ _ => id) h.pending
  exact hcore.touch (t := t) hp rfl rfl rfl

end Core

/-! ### Switches as a whole -/

theorem land_cases (lib : ThreadLibrary) (next : Address) :
    lib.land next = lib ∨ lib.land next =
      { lib.deleteObject lib.threadToDelete with threadToDelete := null, d := false } := by
  unfold ThreadLibrary.land
  split
  · exact Or.inl rfl
  · split
    · exact Or.inr rfl
    · exact Or.inl rfl

theorem land_readyQueue (lib : ThreadLibrary) (next : Address) :
    (lib.land next).readyQueue = lib.readyQueue := by
  unfold land
  split
  · rfl
  · split <;> rfl

theorem land_runningThread (lib : ThreadLibrary) (next : Address) :
    (lib.land next).runningThread = lib.runningThread := by
  unfold land
  split
  · rfl
  · split <;> rfl

theorem land_totalQuantum (lib : ThreadLibrary) (next : Address) :
    (lib.land next).totalQuantum = lib.totalQuantum := by
  unfold land
  split
  · rfl
  · split <;> rfl

section Switch

variable {lib : ThreadLibrary} {next : Address} (h : Core lib none)
  (hfront : lib.readyQueue.head? = some next)
include h hfront

/-- The front of the queue runs after a switch, whoever was left. -/
theorem Scheduled.of_switchTo (env : Env) (hleft : ∃ t, lib.Member lib.runningThread t) :
    Scheduled ((lib.switchTo env next).land next) := by
  have hqueued := List.mem_of_mem_head? hfront
  obtain ⟨t, ht⟩ := h.member_of_queue hqueued
  obtain ⟨u, hu⟩ := hleft
  have hrun := h.startRunning ht hqueued
  have hsame : SameThreads lib (lib.modifyThread next (Thread.setState .running)) :=
    SameThreads.modifyThread ht rfl
  obtain ⟨u', hu', -⟩ := hsame.member hu
  obtain ⟨t', ht', -⟩ := hsame.member ht
  have hsave : Core ((lib.modifyThread next (Thread.setState .running)).modifyThread
      lib.runningThread (Thread.saveEnv env)) (some next) := hrun.touch hu' rfl rfl rfl
  have hsame' : SameThreads _ ((lib.modifyThread next (Thread.setState .running)).modifyThread
      lib.runningThread (Thread.saveEnv env)) := SameThreads.modifyThread hu' rfl
  obtain ⟨t'', ht'', -⟩ := hsame'.member ht'
  constructor
  · rw [land_runningThread]
    exact (hsave.begin ht'').land next
  · rw [land_readyQueue, land_runningThread]
    exact hfront

/-- The same when the thread that was left is gone. -/
theorem Scheduled.of_begin :
    Scheduled (((lib.modifyThread next (Thread.setState .running)).begin next).land next) := by
  have hqueued := List.mem_of_mem_head? hfront
  obtain ⟨t, ht⟩ := h.member_of_queue hqueued
  have hrun := h.startRunning ht hqueued
  have hsame : SameThreads lib (lib.modifyThread next (Thread.setState .running)) :=
    SameThreads.modifyThread ht rfl
  obtain ⟨t', ht', -⟩ := hsame.member ht
  constructor
  · rw [land_runningThread]
    exact (hrun.begin ht').land next
  · rw [land_readyQueue, land_runningThread]
    exact hfront

end Switch

end OsExercises.Uthreads
