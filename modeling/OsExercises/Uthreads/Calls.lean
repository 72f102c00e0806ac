import OsExercises.Uthreads.Handlers

/-!
# The calls, case by case

`Effect` lists what a call or a timer tick can do to a library in order. Every call but the
termination of the main thread does one of these things, and each of them leaves the library in
order; so a call always goes through, and no handler meets an empty queue.
-/

namespace OsExercises.Uthreads

open ThreadLibrary

variable {lib : ThreadLibrary}

/-- The calls that are refused, with their messages. -/
inductive Refused (lib : ThreadLibrary) : Op → String → Prop where
  | nullEntryPoint :
      Refused lib (.spawn null) "thread library error: entry point cant be nullptr\n"
  | maxThreads {entryPoint : Address} :
      entryPoint ≠ null → (∀ i < maxThreadNum, lib.availableId[i]? = some true) →
      Refused lib (.spawn entryPoint) "thread library error: reached max threads\n"
  | terminate {tid : Int32} :
      (∀ p t, lib.Member p t → t.id ≠ tid) →
      Refused lib (.terminate tid) "thread library error: tid don't exist\n"
  | blockMain :
      Refused lib (.block 0) "thread library error: cant block the main thread (tid = 0)\n"
  | block {tid : Int32} :
      tid ≠ 0 → (∀ p t, lib.Member p t → t.id ≠ tid) →
      Refused lib (.block tid) "thread library error: tid don't exist\n"
  | resume {tid : Int32} :
      (∀ p t, lib.Member p t → t.id ≠ tid) →
      Refused lib (.resume tid) "thread library error: tid don't exist\n"
  | sleep {t : Thread} {numQuantums : Int32} :
      lib.Member lib.runningThread t → t.id = 0 →
      Refused lib (.sleep numQuantums) "thread library error: can't put the main thread to sleep \n"
  | getQuantums {tid : Int32} :
      (∀ p t, lib.Member p t → t.id ≠ tid) →
      Refused lib (.getQuantums tid) "thread library error: tid don't exist\n"

/-- The threads that join the queue at a tick. -/
def woken (lib : ThreadLibrary) : List Address :=
  lib.allThreads.filter fun p => (lib.threads p).any Thread.wakesUp

inductive Effect (lib : ThreadLibrary) : Op → Outcome → ThreadLibrary → Prop where
  | refused {op : Op} {message : String} :
      Refused lib op message → Effect lib op (.failed message) lib
  | spawned {entryPoint : Address} {index : Nat} :
      entryPoint ≠ null → index < maxThreadNum → lib.availableId[index]? = some false →
      (∀ i < index, lib.availableId[i]? = some true) →
      Effect lib (.spawn entryPoint) (.returned (asInt index)) (lib.addThread index entryPoint)
  | terminated {p : Address} {t : Thread} {index : Nat} :
      lib.Member p t → t.id = asInt index → index < maxThreadNum → t.id ≠ 0 →
      p ≠ lib.runningThread →
      Effect lib (.terminate t.id) (.returned 0) ((lib.removeThread p index).deleteObject p)
  | terminatedSelf {t : Thread} {index : Nat} {next : Address} {rest : List Address}
      {lib' : ThreadLibrary} :
      lib.Member lib.runningThread t → t.id = asInt index → index < maxThreadNum → t.id ≠ 0 →
      lib.readyQueue = lib.runningThread :: next :: rest →
      lib' = (((lib.removeThread lib.runningThread index).setPending lib.runningThread).modifyThread
        next (Thread.setState .running)).begin next →
      Effect lib (.terminate t.id) (lib'.landing next) (lib'.land next)
  | blocked {p : Address} {t : Thread} :
      lib.Member p t → t.id ≠ 0 → p ≠ lib.runningThread → t.state = .ready →
      Effect lib (.block t.id) (.returned 0)
        ((lib.modifyThread p (Thread.setState .blocked)).setQueue (lib.readyQueue.erase p))
  | blockedAlready {p : Address} {t : Thread} :
      lib.Member p t → t.id ≠ 0 → p ≠ lib.runningThread → t.state = .blocked →
      Effect lib (.block t.id) (.returned 0) lib
  | blockedSelf {t : Thread} {next : Address} {rest : List Address} {lib' : ThreadLibrary} :
      lib.Member lib.runningThread t → t.id ≠ 0 →
      lib.readyQueue = lib.runningThread :: next :: rest →
      lib' = ((lib.modifyThread lib.runningThread (Thread.setState .blocked)).setQueue
        (next :: rest)).switchTo .blockHandler next →
      Effect lib (.block t.id) (lib'.landing next) (lib'.land next)
  | resumed {p : Address} {t : Thread} :
      lib.Member p t → t.state = .blocked →
      Effect lib (.resume t.id) (.returned 0)
        ((lib.modifyThread p (Thread.setState .ready)).setQueue
          (if t.sleep then lib.readyQueue else lib.readyQueue ++ [p]))
  | resumedAlready {p : Address} {t : Thread} :
      lib.Member p t → t.state ≠ .blocked → Effect lib (.resume t.id) (.returned 0) lib
  | slept {t : Thread} {numQuantums : Int32} {next : Address} {rest : List Address}
      {lib' : ThreadLibrary} :
      lib.Member lib.runningThread t → t.id ≠ 0 →
      lib.readyQueue = lib.runningThread :: next :: rest →
      lib' = ((lib.modifyThread lib.runningThread (Thread.fallAsleep numQuantums)).setQueue
        (next :: rest)).switchTo .blockHandler next →
      Effect lib (.sleep numQuantums) (lib'.landing next) (lib'.land next)
  | gotTid {t : Thread} :
      lib.Member lib.runningThread t → Effect lib .getTid (.returned t.id) lib
  | gotTotalQuantums :
      Effect lib .getTotalQuantums (.returned (asInt lib.totalQuantum)) lib
  | gotQuantums {p : Address} {t : Thread} :
      lib.Member p t → Effect lib (.getQuantums t.id) (.returned (asInt t.quantumCounter)) lib
  | ticked {next : Address} {rest rest' : List Address} {lib' : ThreadLibrary} :
      lib.readyQueue = lib.runningThread :: rest →
      rest ++ woken lib ++ [lib.runningThread] = next :: rest' →
      lib' = (((lib.countdown lib.allThreads).modifyThread lib.runningThread
        (Thread.setState .ready)).setQueue (next :: rest')).switchTo .timeHandler next →
      Effect lib .tick (lib'.landing next) (lib'.land next)

/-- A tid is the id of a thread or of none. -/
theorem member_or_none (lib : ThreadLibrary) (tid : Int32) :
    (∃ p t, lib.Member p t ∧ t.id = tid) ∨ ∀ p t, lib.Member p t → t.id ≠ tid := by
  by_cases hex : ∃ p t, lib.Member p t ∧ t.id = tid
  · exact Or.inl hex
  · refine Or.inr fun p t hp hid => hex ⟨p, t, hp, hid⟩

/-- At a tick the queue is rotated behind the threads that wake up. -/
theorem rotated_perm {rest rotated : List Address}
    (hqueue : lib.readyQueue = lib.runningThread :: rest)
    (hrotated : rest ++ woken lib ++ [lib.runningThread] = rotated) :
    rotated.Perm (lib.countdown lib.allThreads).readyQueue := by
  have hcountdown : (lib.countdown lib.allThreads).readyQueue =
      lib.runningThread :: (rest ++ woken lib) := by
    change lib.readyQueue ++ _ = _
    rw [hqueue]
    rfl
  rw [hcountdown, ← hrotated]
  exact List.perm_append_singleton _ _

theorem Core.canDelete {running : Option Address} (h : Core lib running) : CanDelete lib := by
  intro hd
  obtain ⟨-, halive⟩ := h.pending hd
  refine ⟨?_, halive⟩
  intro hnull
  obtain ⟨t, ht⟩ := halive
  rw [hnull, h.null_dead] at ht
  cases ht

section Calls

variable (h : Scheduled lib)
include h

theorem running_member : ∃ t, lib.Member lib.runningThread t :=
  h.core.member_of_queue (List.mem_of_mem_head? h.front)

/-- Behind a thread other than the main thread there is one in the queue, if only the main thread. -/
theorem exists_next {t : Thread} (ht : lib.Member lib.runningThread t) (hzero : t.id ≠ 0) :
    ∃ next rest, lib.readyQueue = lib.runningThread :: next :: rest := by
  obtain ⟨rest, hqueue⟩ := List.head?_eq_some_iff.mp h.front
  obtain ⟨p, u, hp, hid, hrunnable⟩ := h.core.main
  have hmain := (h.core.queued_iff hp).mpr hrunnable
  have hne : p ≠ lib.runningThread := by
    rintro rfl
    rw [hp.unique ht] at hid
    exact hzero hid
  rw [hqueue] at hmain
  cases rest with
  | nil => exact absurd (List.mem_singleton.mp hmain) hne
  | cons next rest => exact ⟨next, rest, hqueue⟩

theorem uthreadSpawn_effect (entryPoint : Address) :
    ∃ outcome lib', uthreadSpawn entryPoint lib = some (outcome, lib') ∧
      Effect lib (.spawn entryPoint) outcome lib' := by
  rw [uthreadSpawn, run_ite]
  by_cases hnull : entryPoint = null
  · subst hnull
    rw [if_pos rfl]
    exact ⟨_, _, rfl, .refused .nullEntryPoint⟩
  rw [if_neg hnull]
  have hlength := h.core.table_length
  cases hfind : lib.availableId.findIdx? (fun value => !value) with
  | none =>
      have hindex : availableIndex lib = some (-1, lib) := by
        rw [availableIndex, run_bind (run_get lib), hfind]
        rfl
      rw [run_bind hindex, run_ite, if_pos rfl]
      refine ⟨_, _, rfl, .refused (.maxThreads hnull fun i hi => ?_)⟩
      have hlt : i < lib.availableId.length := hlength ▸ hi
      have htaken := List.findIdx?_eq_none_iff.mp hfind _ (List.getElem_mem hlt)
      rw [List.getElem?_eq_getElem hlt]
      simpa using htaken
  | some index =>
      have hindex : availableIndex lib = some (asInt index, lib) := by
        rw [availableIndex, run_bind (run_get lib), hfind]
        rfl
      obtain ⟨hlt, hfree, hbefore⟩ := List.findIdx?_eq_some_iff_getElem.mp hfind
      have hmax : index < maxThreadNum := hlength ▸ hlt
      have hsmall : index < 2 ^ 31 := hmax.trans (by decide)
      have hne : asInt index ≠ -1 := by
        intro heq
        have := congrArg Int32.toInt heq
        rw [toInt_asInt hsmall] at this
        simp at this
      rw [run_bind hindex, run_ite, if_neg hne]
      refine ⟨.returned (asInt index), lib.addThread index entryPoint, ?_,
        .spawned hnull hmax ?_ fun i hi => ?_⟩
      · rw [run_bind (run_newThread _ _), asUInt64_asInt hsmall, run_bind (run_pushBack _),
          run_bind (run_modify _ _)]
        exact run_bind_eq (run_setIdValue hlt) rfl
      · rw [List.getElem?_eq_getElem hlt]
        simpa using hfree
      · have htaken := hbefore i hi
        rw [List.getElem?_eq_getElem (hi.trans hlt)]
        simpa using htaken

/-- Only the termination of the main thread is left out. -/
theorem uthreadTerminate_effect {tid : Int32} (hmain : tid ≠ 0) :
    ∃ outcome lib', uthreadTerminate tid lib = some (outcome, lib') ∧
      Effect lib (.terminate tid) outcome lib' := by
  rw [uthreadTerminate, run_bind (run_get lib)]
  rcases member_or_none lib tid with ⟨p, t, hp, rfl⟩ | hnone
  · rw [run_bind (run_checkIfThreadExist h.core hp), run_ite, if_neg (by decide), run_ite,
      if_neg hmain]
    obtain ⟨u, hu⟩ := running_member h
    obtain ⟨index, hindex, hid⟩ := h.core.id_range hp
    have hlt : index < lib.availableId.length := h.core.table_length.symm ▸ hindex
    have hpos : asUInt64 t.id = index := by
      rw [hid, asUInt64_asInt (hindex.trans (by decide))]
    have hnull := member_ne_null h.core hp
    rw [run_bind (run_deref hu.2), run_ite]
    by_cases hself : p = lib.runningThread
    · subst hself
      obtain rfl := hu.unique hp
      obtain ⟨next, rest, hqueue⟩ := exists_next h hp hmain
      refine ⟨_, _, ?_, .terminatedSelf hp hid hindex hmain hqueue rfl⟩
      have hstate : (lib.removeThread lib.runningThread index).setPending lib.runningThread =
          { lib with
            availableId := lib.availableId.set index false
            threadToDelete := lib.runningThread
            readyQueue := next :: rest
            allThreads := lib.allThreads.erase lib.runningThread
            d := true } := by
        rw [removeThread, hqueue, List.erase_cons_head]
        rfl
      obtain ⟨v, -, hv⟩ := h.core.member_of_queue (p := next) (by simp [hqueue])
      rw [if_pos rfl, terminateHandler, hpos, hstate]
      refine run_bind_eq (run_setIdValue hlt) ?_
      refine run_bind_eq (run_modify _ _) ?_
      refine run_bind_eq (run_popFront hqueue) ?_
      refine run_bind_eq (run_searchThread h.core rfl rfl hp) ?_
      refine (run_ite.trans (if_pos hnull)).trans ?_
      refine run_bind_eq (run_modify _ _) ?_
      exact run_begin rfl ⟨v, hv⟩ fun _ => ⟨hnull, u, hp.2⟩
    · have hne : u.id ≠ t.id := fun heq => hself (h.core.id_injective hp hu heq.symm)
      refine ⟨_, _, ?_, .terminated hp hid hindex hmain hself⟩
      obtain ⟨value, hdelete⟩ := run_deleteThreadFromReadyQueue h.core
        (show ({ lib with availableId := lib.availableId.set index false } :
          ThreadLibrary).readyQueue = lib.readyQueue from rfl) rfl hp
      rw [if_neg hne, hpos]
      refine run_bind_eq (run_setIdValue hlt) ?_
      refine run_bind_eq hdelete ?_
      refine run_bind_eq (run_searchThread h.core rfl rfl hp) ?_
      refine (run_ite.trans (if_pos hnull)).trans ?_
      refine run_bind_eq (run_modify _ _) ?_
      exact run_bind_eq (run_delete hnull ⟨t, hp.2⟩) rfl
  · rw [run_bind (run_checkIfThreadExist_none h.core hnone), run_ite, if_pos rfl]
    exact ⟨_, _, rfl, .refused (.terminate hnone)⟩

theorem uthreadBlock_effect (tid : Int32) :
    ∃ outcome lib', uthreadBlock tid lib = some (outcome, lib') ∧
      Effect lib (.block tid) outcome lib' := by
  rw [uthreadBlock, run_bind (run_get lib)]
  rcases member_or_none lib tid with ⟨p, t, hp, rfl⟩ | hnone
  · rw [run_bind (run_checkIfThreadExist h.core hp), run_ite]
    by_cases hmain : t.id = 0
    · rw [if_pos (Or.inl hmain), run_ite, if_pos hmain, hmain]
      exact ⟨_, _, rfl, .refused .blockMain⟩
    rw [if_neg (by simp [hmain]), run_bind (run_searchThread h.core rfl rfl hp), run_ite]
    by_cases hself : p = lib.runningThread
    · subst hself
      obtain ⟨next, rest, hqueue⟩ := exists_next h hp hmain
      refine ⟨_, _, ?_, .blockedSelf hp hmain hqueue rfl⟩
      have hrunning : (lib.setQueue (next :: rest)).Alive lib.runningThread := ⟨t, hp.2⟩
      obtain ⟨v, -, hv⟩ := h.core.member_of_queue (p := next) (by simp [hqueue])
      rw [if_pos rfl, blockHandler, run_bind (run_get lib), run_bind (run_popFront hqueue), run_ite,
        if_pos rfl, run_bind (run_assign hrunning)]
      apply run_switchTo rfl
      · exact alive_modifyThread _ _ _ hrunning
      · rfl
      · exact alive_modifyThread (lib.setQueue (next :: rest)) _ _ ⟨v, hv⟩
      · have hdelete : CanDelete (lib.setQueue (next :: rest)) := h.core.canDelete
        exact hdelete.modifyThread _ _
    · rw [if_neg hself, run_bind (run_deref hp.2), run_ite]
      by_cases hready : t.state = .ready
      · obtain ⟨value, hdelete⟩ := run_deleteThreadFromReadyQueue h.core rfl rfl hp
        refine ⟨_, _, ?_, .blocked hp hmain hself hready⟩
        rw [if_pos hready, run_bind hdelete, run_bind (run_assign ?_)]
        · rfl
        · exact ⟨t, hp.2⟩
      · rw [if_neg hready]
        refine ⟨_, _, rfl, .blockedAlready hp hmain hself ?_⟩
        have hnot : t.state ≠ .running := fun hrunning =>
          hself (Option.some.inj ((h.core.running_iff hp).mp hrunning)).symm
        cases hstate : t.state with
        | ready => exact absurd hstate hready
        | running => exact absurd hstate hnot
        | blocked => rfl
  · rw [run_bind (run_checkIfThreadExist_none h.core hnone), run_ite, if_pos (Or.inr rfl), run_ite]
    by_cases hmain : tid = 0
    · rw [if_pos hmain, hmain]
      exact ⟨_, _, rfl, .refused .blockMain⟩
    · rw [if_neg hmain]
      exact ⟨_, _, rfl, .refused (.block hmain hnone)⟩

theorem uthreadResume_effect (tid : Int32) :
    ∃ outcome lib', uthreadResume tid lib = some (outcome, lib') ∧
      Effect lib (.resume tid) outcome lib' := by
  rw [uthreadResume]
  rcases member_or_none lib tid with ⟨p, t, hp, rfl⟩ | hnone
  · rw [run_bind (run_checkIfThreadExist h.core hp), run_ite, if_neg (by decide),
      run_bind (run_searchThread h.core rfl rfl hp), run_bind (run_deref hp.2), run_ite]
    by_cases hblocked : t.state = .blocked
    · refine ⟨_, _, ?_, .resumed hp hblocked⟩
      rw [if_pos hblocked, run_bind (run_assign ⟨t, hp.2⟩), run_ite]
      cases t.sleep with
      | false => rfl
      | true => rfl
    · rw [if_neg hblocked]
      exact ⟨_, _, rfl, .resumedAlready hp hblocked⟩
  · rw [run_bind (run_checkIfThreadExist_none h.core hnone), run_ite, if_pos rfl]
    exact ⟨_, _, rfl, .refused (.resume hnone)⟩

theorem uthreadSleep_effect (numQuantums : Int32) :
    ∃ outcome lib', uthreadSleep numQuantums lib = some (outcome, lib') ∧
      Effect lib (.sleep numQuantums) outcome lib' := by
  obtain ⟨t, ht⟩ := running_member h
  rw [uthreadSleep, run_bind (run_get lib), run_bind (run_deref ht.2), run_ite]
  by_cases hmain : t.id = 0
  · rw [if_pos hmain]
    exact ⟨_, _, rfl, .refused (.sleep ht hmain)⟩
  · obtain ⟨next, rest, hqueue⟩ := exists_next h ht hmain
    have hrunning : lib.Alive lib.runningThread := ⟨t, ht.2⟩
    have hrunning₁ := alive_modifyThread lib lib.runningThread (Thread.setSleep true) hrunning
    have hrunning₂ := alive_modifyThread _ lib.runningThread
      (Thread.setTimeToSleep numQuantums.toInt) hrunning₁
    refine ⟨_, _, ?_, .slept ht hmain hqueue rfl⟩
    rw [if_neg hmain, run_bind (run_assign hrunning), run_bind (run_assign hrunning₁),
      run_bind (run_assign hrunning₂), modifyThread_modifyThread, modifyThread_modifyThread,
      blockHandler]
    refine run_bind_eq (run_get _) ?_
    refine run_bind_eq (run_popFront hqueue) ?_
    refine (run_ite.trans (if_neg (by simp))).trans ?_
    obtain ⟨v, -, hv⟩ := h.core.member_of_queue (p := next) (by simp [hqueue])
    apply run_switchTo rfl
    · exact alive_modifyThread lib _ _ hrunning
    · rfl
    · exact alive_modifyThread lib _ _ ⟨v, hv⟩
    · exact h.core.canDelete.modifyThread _ _

theorem core_countdown : Core (lib.countdown lib.allThreads) (some lib.runningThread) := by
  apply h.core.countdown
  intro p hp
  rw [← Option.some.inj hp]
  exact List.mem_of_mem_head? h.front

theorem timeHandler_effect :
    ∃ outcome lib', timeHandler lib = some (outcome, lib') ∧ Effect lib .tick outcome lib' := by
  obtain ⟨rest, hqueue⟩ := List.head?_eq_some_iff.mp h.front
  obtain ⟨next, rest', hrotated⟩ :
      ∃ next rest', rest ++ woken lib ++ [lib.runningThread] = next :: rest' := by
    cases rest ++ woken lib with
    | nil => exact ⟨lib.runningThread, [], rfl⟩
    | cons next rest' => exact ⟨next, rest' ++ [lib.runningThread], rfl⟩
  have hcore := core_countdown h
  have halive : ∀ {p}, p ∈ next :: rest' → (lib.countdown lib.allThreads).Alive p := fun hp =>
    hcore.alive (hcore.queue_subset ((rotated_perm hqueue hrotated).subset hp))
  have hpop : popFront (lib.countdown lib.allThreads) =
      some ((), (lib.countdown lib.allThreads).setQueue (rest ++ woken lib)) := by
    apply run_popFront (p := lib.runningThread)
    change lib.readyQueue ++ _ = _
    rw [hqueue]
    rfl
  have hleft : (lib.countdown lib.allThreads).Alive lib.runningThread :=
    halive (by rw [← hrotated]; simp)
  refine ⟨_, _, ?_, .ticked hqueue hrotated rfl⟩
  rw [timeHandler, ← hrotated]
  refine run_bind_eq (run_sleepCheck h.core) ?_
  refine run_bind_eq (run_get _) ?_
  refine run_bind_eq hpop ?_
  refine run_bind_eq (run_pushBack _) ?_
  refine run_bind_eq (run_assign hleft) ?_
  apply run_switchTo rfl
  · exact alive_modifyThread (lib.countdown lib.allThreads) _ _ hleft
  · exact congrArg List.head? hrotated
  · exact alive_modifyThread (lib.countdown lib.allThreads) _ _ (halive List.mem_cons_self)
  · exact hcore.canDelete.modifyThread _ _

theorem perform_effect {op : Op} (hmain : op ≠ .terminate 0) :
    ∃ outcome lib', op.perform lib = some (outcome, lib') ∧ Effect lib op outcome lib' := by
  cases op with
  | spawn entryPoint => exact uthreadSpawn_effect h entryPoint
  | terminate tid => exact uthreadTerminate_effect h fun hzero => hmain (by rw [hzero])
  | block tid => exact uthreadBlock_effect h tid
  | resume tid => exact uthreadResume_effect h tid
  | sleep numQuantums => exact uthreadSleep_effect h numQuantums
  | getTid =>
      obtain ⟨t, ht⟩ := running_member h
      refine ⟨_, _, ?_, .gotTid ht⟩
      exact run_bind_eq (run_get lib) (run_bind_eq (run_deref ht.2) rfl)
  | getTotalQuantums => exact ⟨_, _, run_bind_eq (run_get lib) rfl, .gotTotalQuantums⟩
  | getQuantums tid =>
      simp only [Op.perform, uthreadGetQuantums]
      rcases member_or_none lib tid with ⟨p, t, hp, rfl⟩ | hnone
      · refine ⟨_, _, ?_, .gotQuantums hp⟩
        refine run_bind_eq (run_checkIfThreadExist h.core hp) ?_
        refine (run_ite.trans (if_neg (by decide))).trans ?_
        refine run_bind_eq (run_searchThread h.core rfl rfl hp) ?_
        exact run_bind_eq (run_deref hp.2) rfl
      · refine ⟨_, _, ?_, .refused (.getQuantums hnone)⟩
        refine run_bind_eq (run_checkIfThreadExist_none h.core hnone) ?_
        exact run_ite.trans (if_pos rfl)
  | tick => exact timeHandler_effect h

end Calls

end OsExercises.Uthreads
