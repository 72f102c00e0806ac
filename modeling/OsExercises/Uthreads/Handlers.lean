import OsExercises.Uthreads.Changes
import OsExercises.Library.Ensures

/-!
# Runs of the handlers

The parts that the calls are made of, each with the state it leaves. What they need is that the
objects they use are there, and for the lists that `Core` holds.
-/

namespace OsExercises.Uthreads

open ThreadLibrary

variable {lib : ThreadLibrary}

/-! ### Runs of the parts -/

theorem run_deref {p : Address} {t : Thread} (ht : lib.threads p = some t) :
    deref p lib = some (t, lib) := by
  rw [deref, ht, Option.map_some]

theorem run_assign {p : Address} {change : Thread → Thread} (hp : lib.Alive p) :
    assign p change lib = some ((), lib.modifyThread p change) := by
  obtain ⟨t, ht⟩ := hp
  rw [assign, ht, Option.map_some, modifyThread, ht, Option.map_some]

theorem run_newThread (id : Int32) (entryPoint : Address) :
    newThread id entryPoint lib = some (lib.allocated + 1, { lib with
      threads := Function.update lib.threads (lib.allocated + 1) (some (Thread.new id entryPoint))
      allocated := lib.allocated + 1 }) := rfl

theorem run_setIdValue {pos : Nat} {value : Bool} (hpos : pos < lib.availableId.length) :
    setIdValue pos value lib =
      some ((), { lib with availableId := lib.availableId.set pos value }) := by
  rw [setIdValue, run_modify, if_pos hpos]

theorem run_popFront {p : Address} {rest : List Address} (hqueue : lib.readyQueue = p :: rest) :
    popFront lib = some ((), lib.setQueue rest) := by
  rw [popFront, hqueue]
  rfl

theorem run_front {p : Address} (hfront : lib.readyQueue.head? = some p) :
    front lib = some (p, lib) := by
  rw [front, hfront, Option.map_some]

theorem run_pushBack (p : Address) :
    pushBack p lib = some ((), lib.setQueue (lib.readyQueue ++ [p])) := rfl

theorem run_delete {p : Address} (hnull : p ≠ null) (hp : lib.Alive p) :
    delete p lib = some ((), lib.deleteObject p) := by
  obtain ⟨t, ht⟩ := hp
  rw [delete, if_neg hnull, ht, Option.map_some]
  rfl

theorem run_searchIn {id : Int32} {p : Address} {t : Thread} (ht : lib.threads p = some t)
    (hid : t.id = id) {ps : List Address} (hp : p ∈ ps)
    (hps : ∀ q ∈ ps, ∃ u, lib.threads q = some u ∧ (u.id = id → q = p)) :
    searchIn id ps lib = some (p, lib) := by
  induction ps with
  | nil => cases hp
  | cons q ps ih =>
      obtain ⟨u, hu, honly⟩ := hps q List.mem_cons_self
      rw [searchIn, run_bind (run_deref hu), run_ite]
      by_cases hsame : u.id = id
      · rw [if_pos hsame, honly hsame]
        rfl
      · rw [if_neg hsame]
        refine ih ?_ fun q' hq' => hps q' (List.mem_cons_of_mem q hq')
        rcases List.mem_cons.mp hp with rfl | hp
        · rw [ht] at hu
          cases hu
          exact absurd hid hsame
        · exact hp

theorem run_searchIn_null {id : Int32} {ps : List Address}
    (hps : ∀ q ∈ ps, ∃ u, lib.threads q = some u ∧ u.id ≠ id) :
    searchIn id ps lib = some (null, lib) := by
  induction ps with
  | nil => rfl
  | cons q ps ih =>
      obtain ⟨u, hu, hne⟩ := hps q List.mem_cons_self
      rw [searchIn, run_bind (run_deref hu), run_ite, if_neg hne]
      exact ih fun q' hq' => hps q' (List.mem_cons_of_mem q hq')

theorem member_ne_null {running : Option Address} (h : Core lib running) {p : Address}
    {t : Thread} (hp : lib.Member p t) : p ≠ null := by
  rintro rfl
  have halive := hp.2
  rw [h.null_dead] at halive
  cases halive

/-- The search is about the list of threads and the objects; the rest may have changed. -/
theorem run_searchThread {running : Option Address} {lib' : ThreadLibrary} {p : Address}
    {t : Thread} (h : Core lib running) (hall : lib'.allThreads = lib.allThreads)
    (hthreads : lib'.threads = lib.threads) (hp : lib.Member p t) :
    searchThread t.id lib' = some (p, lib') := by
  rw [searchThread, run_bind (run_get lib'), hall]
  apply run_searchIn (hthreads ▸ hp.2) rfl hp.1
  intro q hq
  obtain ⟨u, hu⟩ := h.alive hq
  exact ⟨u, hthreads ▸ hu, fun hid => h.id_injective ⟨hq, hu⟩ hp hid⟩

/-- The queue loses the thread with the id, if it is there. -/
theorem run_deleteThreadFromReadyQueue {running : Option Address} {lib' : ThreadLibrary}
    {p : Address} {t : Thread} (h : Core lib running)
    (hqueue : lib'.readyQueue = lib.readyQueue) (hthreads : lib'.threads = lib.threads)
    (hp : lib.Member p t) :
    ∃ value, deleteThreadFromReadyQueue t.id lib' =
      some (value, lib'.setQueue (lib.readyQueue.erase p)) := by
  by_cases hin : p ∈ lib.readyQueue
  · have hsearch : searchIn t.id lib.readyQueue lib' = some (p, lib') := by
      apply run_searchIn (hthreads ▸ hp.2) rfl hin
      intro q hq
      obtain ⟨u, hu⟩ := h.member_of_queue hq
      exact ⟨u, hthreads ▸ hu.2, fun hid => h.id_injective hu hp hid⟩
    refine ⟨0, ?_⟩
    rw [deleteThreadFromReadyQueue, run_bind (run_get lib'), hqueue, run_bind hsearch, run_ite,
      if_neg (member_ne_null h hp)]
    rfl
  · have hsearch : searchIn t.id lib.readyQueue lib' = some (null, lib') := by
      apply run_searchIn_null
      intro q hq
      obtain ⟨u, hu⟩ := h.member_of_queue hq
      exact ⟨u, hthreads ▸ hu.2, fun hid => hin (h.id_injective hu hp hid ▸ hq)⟩
    refine ⟨-1, ?_⟩
    rw [deleteThreadFromReadyQueue, run_bind (run_get lib'), hqueue, run_bind hsearch, run_ite,
      if_pos rfl, List.erase_of_not_mem hin, ← hqueue]
    rfl

theorem run_checkIfThreadExist {running : Option Address} (h : Core lib running) {p : Address}
    {t : Thread} (hp : lib.Member p t) :
    checkIfThreadExist (asUInt64 t.id) lib = some (0, lib) := by
  obtain ⟨index, hindex, hid⟩ := h.id_range hp
  have hlookup := (h.id_table hindex).mpr ⟨p, t, hp, hid⟩
  have hsmall : index < 2 ^ 31 := hindex.trans (by decide)
  rw [checkIfThreadExist, run_bind (run_get lib), hid, asUInt64_asInt hsmall, hlookup]
  rfl

theorem run_checkIfThreadExist_none {running : Option Address} (h : Core lib running) {tid : Int32}
    (hnone : ∀ p t, lib.Member p t → t.id ≠ tid) :
    checkIfThreadExist (asUInt64 tid) lib = some (-1, lib) := by
  rw [checkIfThreadExist, run_bind (run_get lib)]
  cases hlookup : lib.availableId[asUInt64 tid]? with
  | none => rfl
  | some taken =>
      cases taken with
      | false => rfl
      | true =>
          have hindex : asUInt64 tid < maxThreadNum := by
            rw [← h.table_length]
            exact (List.getElem?_eq_some_iff.mp hlookup).1
          obtain ⟨p, t, hp, hid⟩ := (h.id_table hindex).mp hlookup
          refine absurd (hid.trans ?_) (hnone p t hp)
          exact (eq_asInt_of_asUInt64_eq (hindex.trans (by decide)) rfl).symm

/-! ### Runs of the handlers -/

theorem modifyThread_eq {p : Address} {t : Thread} (ht : lib.threads p = some t)
    (change : Thread → Thread) :
    (lib.modifyThread p change).threads p = some (change t) := by
  rw [modifyThread_threads, if_pos rfl, ht, Option.map_some]

theorem modifyThread_congr {p : Address} {t : Thread} (ht : lib.threads p = some t)
    {change change' : Thread → Thread} (heq : change t = change' t) :
    lib.modifyThread p change = lib.modifyThread p change' := by
  rw [modifyThread, modifyThread, ht, Option.map_some, Option.map_some, heq]

theorem countdown_singleton {p : Address} {t : Thread} (ht : lib.threads p = some t) :
    lib.countdown [p] = (lib.modifyThread p Thread.countdown).setQueue
      (if t.wakesUp then lib.readyQueue ++ [p] else lib.readyQueue) := by
  have hthreads : (fun q => if q ∈ [p] then (lib.threads q).map Thread.countdown else lib.threads q) =
      (lib.modifyThread p Thread.countdown).threads := by
    funext q
    rw [modifyThread_threads]
    by_cases heq : q = p
    · simp [heq]
    · simp [heq]
  have hqueue : lib.readyQueue ++ [p].filter (fun p => (lib.threads p).any Thread.wakesUp) =
      if t.wakesUp then lib.readyQueue ++ [p] else lib.readyQueue := by
    simp only [List.filter_cons, ht, Option.any_some, List.filter_nil]
    split
    · rfl
    · rw [List.append_nil]
  rw [ThreadLibrary.countdown, hthreads, hqueue]
  rfl

theorem run_sleepCheckThread {p : Address} {t : Thread} (ht : lib.threads p = some t) :
    sleepCheckThread p lib = some ((), lib.countdown [p]) := by
  rw [countdown_singleton ht, sleepCheckThread, run_bind (run_deref ht), run_ite]
  by_cases hsleep : t.sleep = true
  · rw [if_pos hsleep, run_bind (run_assign ⟨t, ht⟩), run_bind (run_deref (modifyThread_eq ht _)),
      run_ite]
    by_cases htime : t.timeToSleep = 1
    · have hzero : (t.decreaceTimeToSleep).timeToSleep = 0 := by
        rw [Thread.decreaceTimeToSleep, htime]
        rfl
      have hdown : t.countdown = (Thread.setSleep false ∘ Thread.decreaceTimeToSleep) t := by
        rw [Thread.countdown, if_pos hsleep, if_pos htime]
        rfl
      rw [if_pos hzero, run_bind (run_assign ⟨_, modifyThread_eq ht _⟩), modifyThread_modifyThread,
        run_bind (run_deref (modifyThread_eq ht _)), run_ite, modifyThread_congr ht hdown]
      have hwakes : t.wakesUp = decide (t.state = .ready) := by
        simp only [Thread.wakesUp, hsleep, htime]
        rfl
      rw [hwakes]
      by_cases hready : t.state = .ready
      · rw [if_pos (show ((Thread.setSleep false ∘ Thread.decreaceTimeToSleep) t).state = .ready
          from hready), if_pos (by simpa using hready)]
        rfl
      · rw [if_neg (show ¬ ((Thread.setSleep false ∘ Thread.decreaceTimeToSleep) t).state = .ready
          from hready), if_neg (by simpa using hready)]
        rfl
    · have hzero : (t.decreaceTimeToSleep).timeToSleep ≠ 0 := by
        rw [Thread.decreaceTimeToSleep]
        simp only
        omega
      have hdown : t.countdown = t.decreaceTimeToSleep := by
        rw [Thread.countdown, if_pos hsleep, if_neg htime]
      have hwakes : t.wakesUp = false := by
        simp [Thread.wakesUp, htime]
      rw [if_neg hzero, modifyThread_congr ht hdown, hwakes]
      rfl
  · have hdown : t.countdown = id t := if_neg hsleep
    have hwakes : t.wakesUp = false := by
      simp [Thread.wakesUp, hsleep]
    rw [if_neg hsleep, hwakes, modifyThread_congr ht hdown, modifyThread, Option.map_id, id,
      Function.update_eq_self]
    rfl

theorem countdown_cons {p : Address} {ps : List Address} (hp : p ∉ ps) :
    (lib.countdown [p]).countdown ps = lib.countdown (p :: ps) := by
  have hthreads : (fun q => if q ∈ ps then ((lib.countdown [p]).threads q).map Thread.countdown
      else (lib.countdown [p]).threads q) =
      fun q => if q ∈ p :: ps then (lib.threads q).map Thread.countdown else lib.threads q := by
    funext q
    by_cases heq : q = p
    · simp [ThreadLibrary.countdown, heq, hp]
    · simp [ThreadLibrary.countdown, heq]
  have hfilter : ps.filter (fun q => ((lib.countdown [p]).threads q).any Thread.wakesUp) =
      ps.filter fun q => (lib.threads q).any Thread.wakesUp := by
    apply List.filter_congr
    intro q hq
    have hne : q ≠ p := fun heq => hp (heq ▸ hq)
    simp [ThreadLibrary.countdown, hne]
  rw [ThreadLibrary.countdown, hthreads, hfilter]
  simp only [ThreadLibrary.countdown, List.filter_cons, List.filter_nil]
  split <;> simp

theorem run_sleepChecks (ps : List Address) :
    ∀ {lib : ThreadLibrary}, ps.Nodup → (∀ p ∈ ps, lib.Alive p) →
      ps.forM sleepCheckThread lib = some ((), lib.countdown ps) := by
  induction ps with
  | nil =>
      intro lib _ _
      have hsame : lib.countdown [] = lib := by
        simp [ThreadLibrary.countdown]
      rw [hsame]
      rfl
  | cons p ps ih =>
      intro lib hnodup halive
      obtain ⟨hp, hnodup⟩ := List.nodup_cons.mp hnodup
      obtain ⟨t, ht⟩ := halive p List.mem_cons_self
      change (sleepCheckThread p >>= fun _ => ps.forM sleepCheckThread) lib = _
      rw [run_bind (run_sleepCheckThread ht), ← countdown_cons hp]
      apply ih hnodup
      intro q hq
      have hne : q ≠ p := fun heq => hp (heq ▸ hq)
      obtain ⟨u, hu⟩ := halive q (List.mem_cons_of_mem p hq)
      exact ⟨u, by simp [ThreadLibrary.countdown, hne, hu]⟩

theorem run_sleepCheck {running : Option Address} (h : Core lib running) :
    sleepCheck lib = some ((), lib.countdown lib.allThreads) := by
  rw [sleepCheck, run_bind (run_get lib)]
  exact run_sleepChecks lib.allThreads h.all_nodup fun p hp => h.alive hp

/-- The pending object is there to be deleted. -/
def CanDelete (lib : ThreadLibrary) : Prop :=
  lib.d = true → lib.threadToDelete ≠ null ∧ lib.Alive lib.threadToDelete

theorem run_returnFromSigsetjmp {next : Address} {t : Thread} (ht : lib.threads next = some t)
    (hback : ∀ entryPoint, t.env ≠ .entry entryPoint) (hdelete : CanDelete lib) :
    returnFromSigsetjmp lib = some (lib.landing next, lib.land next) := by
  have hlanding : lib.landing next = .resumed := by
    rw [landing, ht, Option.map_some]
    cases henv : t.env with
    | entry entryPoint => exact absurd henv (hback entryPoint)
    | blockHandler => rfl
    | timeHandler => rfl
  have hland : lib.land next = if lib.d then
      { lib.deleteObject lib.threadToDelete with threadToDelete := null, d := false } else lib := by
    rw [land, ht, Option.map_some]
    cases henv : t.env with
    | entry entryPoint => exact absurd henv (hback entryPoint)
    | blockHandler => rfl
    | timeHandler => rfl
  rw [hlanding, hland, returnFromSigsetjmp, run_bind (run_get lib), run_ite]
  by_cases hd : lib.d = true
  · obtain ⟨hnull, halive⟩ := hdelete hd
    rw [if_pos hd, if_pos hd, run_bind (run_delete hnull halive), run_bind (run_modify _ _)]
    rfl
  · rw [if_neg hd, if_neg hd]
    rfl

theorem run_siglongjmp {next : Address} (hnext : lib.Alive next) (hdelete : CanDelete lib) :
    siglongjmp next lib = some (lib.landing next, lib.land next) := by
  obtain ⟨t, ht⟩ := hnext
  rw [siglongjmp, run_bind (run_deref ht)]
  cases henv : t.env with
  | entry entryPoint =>
      rw [landing, land, ht, Option.map_some, henv]
      rfl
  | blockHandler => exact run_returnFromSigsetjmp ht (by simp [henv]) hdelete
  | timeHandler => exact run_returnFromSigsetjmp ht (by simp [henv]) hdelete

theorem run_startQuantum {next : Address} (hnext : lib.Alive next) :
    startQuantum next lib = some ((), lib.begin next) := by
  have hnext' : ({ lib with runningThread := next, totalQuantum := lib.totalQuantum + 1 } :
      ThreadLibrary).Alive next := hnext
  rw [startQuantum, run_bind (run_modify _ _), run_assign hnext']
  rfl

theorem CanDelete.modifyThread (hdelete : CanDelete lib) (p : Address) (change : Thread → Thread) :
    CanDelete (lib.modifyThread p change) := by
  intro hd
  obtain ⟨hnull, halive⟩ := hdelete hd
  exact ⟨hnull, alive_modifyThread lib p change halive⟩

theorem CanDelete.begin (hdelete : CanDelete lib) (next : Address) : CanDelete (lib.begin next) :=
  CanDelete.modifyThread (fun hd => hdelete hd) next _

/-- The end of a handler that saves the thread it leaves. -/
theorem run_switchTo {left next : Address} (hleft : lib.runningThread = left)
    (hleftAlive : lib.Alive left) (hfront : lib.readyQueue.head? = some next)
    (hnext : lib.Alive next) (hdelete : CanDelete lib) (env : Env) :
    (do
      let next ← front
      assign next (Thread.setState .running)
      assign left (Thread.saveEnv env)
      startQuantum next
      siglongjmp next : LibraryM Outcome) lib =
      some ((lib.switchTo env next).landing next, (lib.switchTo env next).land next) := by
  have hleft₁ := alive_modifyThread lib next (Thread.setState .running) hleftAlive
  have hnext₂ := alive_modifyThread _ left (Thread.saveEnv env)
    (alive_modifyThread lib next (Thread.setState .running) hnext)
  rw [run_bind (run_front hfront), run_bind (run_assign hnext), run_bind (run_assign hleft₁),
    run_bind (run_startQuantum hnext₂), switchTo, hleft]
  apply run_siglongjmp
  · exact alive_modifyThread _ next Thread.increaceQuantumCounter hnext₂
  · exact ((hdelete.modifyThread _ _).modifyThread _ _).begin _

/-- The end of `terminate_handler`. -/
theorem run_begin {next : Address} (hfront : lib.readyQueue.head? = some next)
    (hnext : lib.Alive next) (hdelete : CanDelete lib) :
    (do
      let next ← front
      assign next (Thread.setState .running)
      startQuantum next
      siglongjmp next : LibraryM Outcome) lib =
      some (((lib.modifyThread next (Thread.setState .running)).begin next).landing next,
        ((lib.modifyThread next (Thread.setState .running)).begin next).land next) := by
  have hnext₁ := alive_modifyThread lib next (Thread.setState .running) hnext
  rw [run_bind (run_front hfront), run_bind (run_assign hnext), run_bind (run_startQuantum hnext₁)]
  apply run_siglongjmp
  · exact alive_modifyThread _ next Thread.increaceQuantumCounter hnext₁
  · exact (hdelete.modifyThread _ _).begin _

end OsExercises.Uthreads
