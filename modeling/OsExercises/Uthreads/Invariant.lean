import OsExercises.Uthreads.Api

/-!
# The invariant of the scheduler

Five structures say who may run: the queue, the list of threads, the id table, the state and sleep
flag of every thread, and the running pointer. `Core` says how they agree. It takes the running
thread as an argument, so that it also holds in the middle of a switch, when nobody is running.

The threads of the library are the ones of `all_threads`; an object that is not in that list has
been terminated, and nothing is said of its state.
-/

namespace OsExercises.Uthreads

open Function (update)

namespace ThreadLibrary

variable (lib : ThreadLibrary)

/-- The object is a thread of the library. -/
def Member (p : Address) (t : Thread) : Prop := p ∈ lib.allThreads ∧ lib.threads p = some t

def Alive (p : Address) : Prop := ∃ t, lib.threads p = some t

def modifyThread (p : Address) (change : Thread → Thread) : ThreadLibrary :=
  { lib with threads := update lib.threads p ((lib.threads p).map change) }

def setQueue (queue : List Address) : ThreadLibrary := { lib with readyQueue := queue }

theorem modifyThread_threads (p : Address) (change : Thread → Thread) (q : Address) :
    (lib.modifyThread p change).threads q =
      if q = p then (lib.threads p).map change else lib.threads q :=
  Function.update_apply lib.threads p _ q

theorem alive_modifyThread (p : Address) (change : Thread → Thread) {q : Address}
    (hq : lib.Alive q) : (lib.modifyThread p change).Alive q := by
  obtain ⟨t, ht⟩ := hq
  unfold Alive
  rw [modifyThread_threads]
  split
  · rename_i heq
    exact ⟨change t, by rw [← heq, ht, Option.map_some]⟩
  · exact ⟨t, ht⟩

theorem modifyThread_modifyThread (p : Address) (change change' : Thread → Thread) :
    (lib.modifyThread p change).modifyThread p change' =
      lib.modifyThread p (change' ∘ change) := by
  simp [modifyThread]

theorem Member.unique {lib : ThreadLibrary} {p : Address} {t u : Thread} (hp : lib.Member p t)
    (hp' : lib.Member p u) : t = u :=
  Option.some.inj (hp.2.symm.trans hp'.2)

end ThreadLibrary

open ThreadLibrary

/-- A thread that may run: it is not blocked and not sleeping. -/
def Thread.Runnable (t : Thread) : Prop := t.state ≠ .blocked ∧ t.sleep = false

structure Core (lib : ThreadLibrary) (running : Option Address) : Prop where
  all_nodup : lib.allThreads.Nodup
  queue_nodup : lib.readyQueue.Nodup
  alive : ∀ {p}, p ∈ lib.allThreads → lib.Alive p
  queue_subset : ∀ {p}, p ∈ lib.readyQueue → p ∈ lib.allThreads
  queued_iff : ∀ {p t}, lib.Member p t → (p ∈ lib.readyQueue ↔ t.Runnable)
  running_iff : ∀ {p t}, lib.Member p t → (t.state = .running ↔ running = some p)
  main : ∃ p t, lib.Member p t ∧ t.id = 0 ∧ t.Runnable
  id_injective : ∀ {p q t u}, lib.Member p t → lib.Member q u → t.id = u.id → p = q
  table_length : lib.availableId.length = maxThreadNum
  id_table : ∀ {i}, i < maxThreadNum →
    (lib.availableId[i]? = some true ↔ ∃ p t, lib.Member p t ∧ t.id = asInt i)
  id_range : ∀ {p t}, lib.Member p t → ∃ i < maxThreadNum, t.id = asInt i
  null_dead : lib.threads null = none
  allocated : ∀ {p t}, lib.threads p = some t → p ≤ lib.allocated
  pending : lib.d = true →
    lib.threadToDelete ∉ lib.allThreads ∧ lib.Alive lib.threadToDelete

theorem Core.member_of_mem {lib : ThreadLibrary} {running : Option Address} (h : Core lib running)
    {p : Address} (hp : p ∈ lib.allThreads) : ∃ t, lib.Member p t := by
  obtain ⟨t, ht⟩ := h.alive hp
  exact ⟨t, hp, ht⟩

theorem Core.member_of_queue {lib : ThreadLibrary} {running : Option Address}
    (h : Core lib running) {p : Address} (hp : p ∈ lib.readyQueue) : ∃ t, lib.Member p t :=
  h.member_of_mem (h.queue_subset hp)

/-- Between two calls: the running thread is the front of the queue. -/
structure Scheduled (lib : ThreadLibrary) : Prop where
  core : Core lib (some lib.runningThread)
  front : lib.readyQueue.head? = some lib.runningThread

/-- The threads are the same ones, with the same ids; all else about them may change. -/
structure SameThreads (lib lib' : ThreadLibrary) : Prop where
  allThreads : lib'.allThreads = lib.allThreads
  availableId : lib'.availableId = lib.availableId
  d : lib'.d = lib.d
  threadToDelete : lib'.threadToDelete = lib.threadToDelete
  allocated : lib'.allocated = lib.allocated
  member : ∀ {p t}, lib.Member p t → ∃ t', lib'.Member p t' ∧ t'.id = t.id
  outside : ∀ {p}, p ∉ lib.allThreads → lib'.threads p = lib.threads p

namespace SameThreads

variable {lib lib' lib'' : ThreadLibrary}

theorem trans (h : SameThreads lib lib') (h' : SameThreads lib' lib'') : SameThreads lib lib'' where
  allThreads := h'.allThreads.trans h.allThreads
  availableId := h'.availableId.trans h.availableId
  d := h'.d.trans h.d
  threadToDelete := h'.threadToDelete.trans h.threadToDelete
  allocated := h'.allocated.trans h.allocated
  member hp := by
    obtain ⟨t', hp', hid'⟩ := h.member hp
    obtain ⟨t'', hp'', hid''⟩ := h'.member hp'
    exact ⟨t'', hp'', hid''.trans hid'⟩
  outside hp := (h'.outside (h.allThreads.symm ▸ hp)).trans (h.outside hp)

theorem setQueue (queue : List Address) : SameThreads lib (lib.setQueue queue) :=
  ⟨rfl, rfl, rfl, rfl, rfl, fun hp => ⟨_, hp, rfl⟩, fun _ => rfl⟩

/-- The threads of the library after a change of one of them. -/
theorem member_modify_iff {p : Address} {t : Thread} (hp : lib.Member p t)
    {change : Thread → Thread} {q : Address} {u : Thread} :
    (lib.modifyThread p change).Member q u ↔
      (q = p ∧ u = change t) ∨ (q ≠ p ∧ lib.Member q u) := by
  unfold Member
  rw [modifyThread_threads, hp.2]
  change q ∈ lib.allThreads ∧ _ ↔ _
  by_cases heq : q = p
  · subst heq
    simp [hp.1, eq_comm]
  · simp [heq]

theorem member_modify {p : Address} {t : Thread} (hp : lib.Member p t)
    (change : Thread → Thread) : (lib.modifyThread p change).Member p (change t) :=
  (member_modify_iff hp).mpr (Or.inl ⟨rfl, rfl⟩)

theorem modifyThread {p : Address} {t : Thread} {change : Thread → Thread} (hp : lib.Member p t)
    (hid : (change t).id = t.id) : SameThreads lib (lib.modifyThread p change) := by
  refine ⟨rfl, rfl, rfl, rfl, rfl, fun {q u} hq => ?_, fun {q} hq => ?_⟩
  · by_cases heq : q = p
    · subst heq
      obtain rfl := hq.unique hp
      exact ⟨change u, (member_modify_iff hp).mpr (Or.inl ⟨rfl, rfl⟩), hid⟩
    · exact ⟨u, (member_modify_iff hp).mpr (Or.inr ⟨heq, hq⟩), rfl⟩
  · rw [modifyThread_threads, if_neg]
    rintro rfl
    exact hq hp.1

end SameThreads

namespace Core

variable {lib lib' : ThreadLibrary} {running running' : Option Address}

/-- When the threads stay, only the queue and the running thread have to be looked at. -/
theorem of_sameThreads (h : Core lib running) (hsame : SameThreads lib lib')
    (hnodup : lib'.readyQueue.Nodup) (hsubset : ∀ {p}, p ∈ lib'.readyQueue → p ∈ lib.allThreads)
    (hqueued : ∀ {p t}, lib'.Member p t → (p ∈ lib'.readyQueue ↔ t.Runnable))
    (hrunning : ∀ {p t}, lib'.Member p t → (t.state = .running ↔ running' = some p))
    (hmain : ∀ {p t}, lib'.Member p t → t.id = 0 → t.Runnable) : Core lib' running' := by
  have hback : ∀ {p t}, lib'.Member p t → ∃ t', lib.Member p t' ∧ t'.id = t.id := by
    intro p t hp
    have hall := hsame.allThreads ▸ hp.1
    obtain ⟨t', ht'⟩ := h.alive hall
    obtain ⟨u, hu, hid⟩ := hsame.member ⟨hall, ht'⟩
    obtain rfl := hu.unique hp
    exact ⟨t', ⟨hall, ht'⟩, hid.symm⟩
  constructor
  case all_nodup => exact hsame.allThreads ▸ h.all_nodup
  case queue_nodup => exact hnodup
  case alive =>
    intro p hp
    obtain ⟨t, ht⟩ := h.alive (hsame.allThreads ▸ hp)
    obtain ⟨t', ht', -⟩ := hsame.member ⟨hsame.allThreads ▸ hp, ht⟩
    exact ⟨t', ht'.2⟩
  case queue_subset => exact fun hp => hsame.allThreads ▸ hsubset hp
  case queued_iff => exact hqueued
  case running_iff => exact hrunning
  case main =>
    obtain ⟨p, t, hp, hzero, -⟩ := h.main
    obtain ⟨t', hp', hid⟩ := hsame.member hp
    exact ⟨p, t', hp', hid.trans hzero, hmain hp' (hid.trans hzero)⟩
  case id_injective =>
    intro p q t u hp hq hid
    obtain ⟨t', hp', hidp⟩ := hback hp
    obtain ⟨u', hq', hidq⟩ := hback hq
    exact h.id_injective hp' hq' (by rw [hidp, hidq, hid])
  case table_length => exact hsame.availableId ▸ h.table_length
  case id_table =>
    intro i hi
    rw [hsame.availableId, h.id_table hi]
    constructor
    · rintro ⟨p, t, hp, hid⟩
      obtain ⟨t', hp', hid'⟩ := hsame.member hp
      exact ⟨p, t', hp', hid'.trans hid⟩
    · rintro ⟨p, t, hp, hid⟩
      obtain ⟨t', hp', hid'⟩ := hback hp
      exact ⟨p, t', hp', hid'.trans hid⟩
  case id_range =>
    intro p t hp
    obtain ⟨t', hp', hid⟩ := hback hp
    obtain ⟨i, hi, heq⟩ := h.id_range hp'
    exact ⟨i, hi, hid ▸ heq⟩
  case null_dead =>
    rw [hsame.outside, h.null_dead]
    intro hnull
    obtain ⟨t, ht⟩ := h.alive hnull
    rw [h.null_dead] at ht
    cases ht
  case allocated =>
    intro p t hp
    rw [hsame.allocated]
    by_cases hall : p ∈ lib.allThreads
    · obtain ⟨t', ht'⟩ := h.alive hall
      exact h.allocated ht'
    · exact h.allocated (hsame.outside hall ▸ hp)
  case pending =>
    intro hd
    rw [hsame.threadToDelete, hsame.allThreads]
    obtain ⟨hout, t, ht⟩ := h.pending (hsame.d ▸ hd)
    exact ⟨hout, t, by rw [hsame.outside hout, ht]⟩

/-- The main thread may always run. -/
theorem main_runnable (h : Core lib running) {p : Address} {t : Thread} (hp : lib.Member p t)
    (hzero : t.id = 0) : t.Runnable := by
  obtain ⟨q, u, hq, hu, hrunnable⟩ := h.main
  obtain rfl := h.id_injective hp hq (hzero.trans hu.symm)
  obtain rfl := hp.unique hq
  exact hrunnable

/-- One thread and the queue change together. -/
theorem update (h : Core lib running) {p : Address} {t : Thread} {change : Thread → Thread}
    (hp : lib.Member p t) {queue : List Address} (hid : (change t).id = t.id)
    (hnodup : queue.Nodup) (hothers : ∀ q, q ≠ p → (q ∈ queue ↔ q ∈ lib.readyQueue))
    (hqueued : p ∈ queue ↔ (change t).Runnable)
    (hrunning : (change t).state = .running ↔ running' = some p)
    (hrunning' : ∀ q, q ≠ p → (running' = some q ↔ running = some q))
    (hmain : t.id = 0 → (change t).Runnable) :
    Core ((lib.modifyThread p change).setQueue queue) running' := by
  have hcases : ∀ {q u}, ((lib.modifyThread p change).setQueue queue).Member q u →
      (q = p ∧ u = change t) ∨ (q ≠ p ∧ lib.Member q u) :=
    fun hq => (SameThreads.member_modify_iff hp).mp hq
  refine h.of_sameThreads ((SameThreads.modifyThread hp hid).trans (.setQueue queue)) hnodup
    ?_ ?_ ?_ ?_
  · intro q hq
    by_cases heq : q = p
    · exact heq ▸ hp.1
    · exact h.queue_subset ((hothers q heq).mp hq)
  · intro q u hq
    rcases hcases hq with ⟨rfl, rfl⟩ | ⟨hne, hq⟩
    · exact hqueued
    · exact (hothers q hne).trans (h.queued_iff hq)
  · intro q u hq
    rcases hcases hq with ⟨rfl, rfl⟩ | ⟨hne, hq⟩
    · exact hrunning
    · exact (h.running_iff hq).trans (hrunning' q hne).symm
  · intro q u hq hzero
    rcases hcases hq with ⟨rfl, rfl⟩ | ⟨hne, hq⟩
    · exact hmain (hid ▸ hzero)
    · exact h.main_runnable hq hzero

/-- A change that does not touch what decides who may run. -/
theorem touch (h : Core lib running) {p : Address} {t : Thread} {change : Thread → Thread}
    (hp : lib.Member p t) (hid : (change t).id = t.id) (hstate : (change t).state = t.state)
    (hsleep : (change t).sleep = t.sleep) : Core (lib.modifyThread p change) running := by
  have hrunnable : (change t).Runnable ↔ t.Runnable := by
    rw [Thread.Runnable, Thread.Runnable, hstate, hsleep]
  change Core ((lib.modifyThread p change).setQueue lib.readyQueue) running
  refine h.update hp hid h.queue_nodup (fun _ _ => Iff.rfl) ?_ ?_
    (fun _ _ => Iff.rfl) ?_
  · rw [hrunnable, h.queued_iff hp]
  · rw [hstate, h.running_iff hp]
  · exact fun hzero => hrunnable.mpr (h.main_runnable hp hzero)

end Core

end OsExercises.Uthreads
