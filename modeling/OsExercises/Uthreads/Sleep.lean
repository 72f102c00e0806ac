import OsExercises.Uthreads.Fields

/-!
# How long a thread sleeps

`total_quantum` counts every quantum that starts, but a sleeping thread is counted down by the timer
alone: `block_handler` and `terminate_handler` start a quantum without `sleep_check`. So a thread
wakes up late by one quantum for every thread that gives up the rest of its own quantum meanwhile.
-/

namespace OsExercises.Uthreads

open ThreadLibrary

variable {lib lib' lib'' : ThreadLibrary} {op : Op} {outcome : Outcome} {p : Address} {t : Thread}

/-- The running thread blocks itself, goes to sleep or terminates itself. -/
def GivesUp (lib : ThreadLibrary) (op : Op) : Prop :=
  ∃ t, lib.Member lib.runningThread t ∧ t.id ≠ 0 ∧
    (op = .block t.id ∨ op = .terminate t.id ∨ ∃ numQuantums, op = .sleep numQuantums)

/-- The thread sleeps for as long as another one. -/
def Thread.SameSleep (t t' : Thread) : Prop := t'.sleep = t.sleep ∧ t'.timeToSleep = t.timeToSleep

/-- The sleep of a thread of the library does not change. -/
def KeepsSleep (p : Address) (lib lib' : ThreadLibrary) : Prop :=
  ∀ t, lib.Member p t → ∃ t', lib'.Member p t' ∧ t.SameSleep t'

namespace KeepsSleep

theorem refl (p : Address) (lib : ThreadLibrary) : KeepsSleep p lib lib :=
  fun t hp => ⟨t, hp, rfl, rfl⟩

theorem trans (h : KeepsSleep p lib lib') (h' : KeepsSleep p lib' lib'') :
    KeepsSleep p lib lib'' := by
  intro t hp
  obtain ⟨t', hp', hsleep, htime⟩ := h t hp
  obtain ⟨t'', hp'', hsleep', htime'⟩ := h' t' hp'
  exact ⟨t'', hp'', hsleep'.trans hsleep, htime'.trans htime⟩

theorem of_threads (hall : p ∈ lib.allThreads → p ∈ lib'.allThreads)
    (hthreads : lib'.threads p = lib.threads p) : KeepsSleep p lib lib' :=
  fun t hp => ⟨t, ⟨hall hp.1, hthreads.trans hp.2⟩, rfl, rfl⟩

theorem modifyThread (lib : ThreadLibrary) (q : Address) {change : Thread → Thread}
    (hchange : ∀ t : Thread, t.SameSleep (change t)) : KeepsSleep p lib (lib.modifyThread q change) := by
  intro t hp
  by_cases heq : p = q
  · subst heq
    exact ⟨change t, SameThreads.member_modify hp change, hchange t⟩
  · refine ⟨t, ⟨hp.1, ?_⟩, rfl, rfl⟩
    rw [modifyThread_threads, if_neg heq]
    exact hp.2

theorem setState (lib : ThreadLibrary) (q : Address) (state : State) :
    KeepsSleep p lib (lib.modifyThread q (Thread.setState state)) :=
  modifyThread lib q fun _ => ⟨rfl, rfl⟩

theorem begin (lib : ThreadLibrary) (next : Address) : KeepsSleep p lib (lib.begin next) := by
  have hcount : KeepsSleep p lib
      { lib with runningThread := next, totalQuantum := lib.totalQuantum + 1 } :=
    of_threads id rfl
  exact hcount.trans (modifyThread _ next fun _ => ⟨rfl, rfl⟩)

theorem switchTo (lib : ThreadLibrary) (env : Env) (next : Address) :
    KeepsSleep p lib (lib.switchTo env next) := by
  have hstate : KeepsSleep p lib _ := setState lib next .running
  have henv : KeepsSleep p (lib.modifyThread next (Thread.setState .running))
      ((lib.modifyThread next (Thread.setState .running)).modifyThread lib.runningThread
        (Thread.saveEnv env)) :=
    modifyThread _ lib.runningThread fun _ => ⟨rfl, rfl⟩
  exact (hstate.trans henv).trans (begin _ next)

theorem land (lib : ThreadLibrary) (next : Address)
    (hpending : lib.d = true → lib.threadToDelete ∉ lib.allThreads) :
    KeepsSleep p lib (lib.land next) := by
  intro t hp
  unfold ThreadLibrary.land
  split
  · exact refl p lib t hp
  · split
    · rename_i hd
      have hne : p ≠ lib.threadToDelete := fun heq => hpending hd (heq ▸ hp.1)
      refine ⟨t, ⟨hp.1, ?_⟩, rfl, rfl⟩
      exact (Core.deleteObject_threads lib lib.threadToDelete p).trans ((if_neg hne).trans hp.2)
    · exact refl p lib t hp

end KeepsSleep

/-! ### One step of a sleeping thread -/

/-- What an operation does to a thread that sleeps: it may begin a quantum without a countdown. -/
inductive SleepStep (p : Address) (t : Thread) (lib : ThreadLibrary) (op : Op)
    (lib' : ThreadLibrary) : Prop where
  | quiet {t' : Thread} :
      ¬ GivesUp lib op → lib'.totalQuantum = lib.totalQuantum → lib'.Member p t' →
      t.SameSleep t' → SleepStep p t lib op lib'
  | givesUp {t' : Thread} :
      GivesUp lib op → lib'.totalQuantum = lib.totalQuantum + 1 → lib'.Member p t' →
      t.SameSleep t' → SleepStep p t lib op lib'
  | ticks {t' : Thread} {behind : List Address} :
      ¬ GivesUp lib op → lib'.totalQuantum = lib.totalQuantum + 1 → lib'.Member p t' →
      t.countdown.SameSleep t' → lib'.readyQueue = lib.readyQueue.tail ++ behind →
      SleepStep p t lib op lib'

theorem not_givesUp (hblock : ∀ tid, op ≠ .block tid) (hterminate : ∀ tid, op ≠ .terminate tid)
    (hsleep : ∀ numQuantums, op ≠ .sleep numQuantums) : ¬ GivesUp lib op := by
  rintro ⟨t, -, -, heq | heq | ⟨numQuantums, heq⟩⟩
  · exact hblock _ heq
  · exact hterminate _ heq
  · exact hsleep _ heq

theorem not_givesUp_refused {message : String} (hrefused : Refused lib op message) :
    ¬ GivesUp lib op := by
  rintro ⟨t, ht, hmain, hop⟩
  cases hrefused with
  | nullEntryPoint => simp at hop
  | maxThreads _ _ => simp at hop
  | @terminate tid hnone =>
      have hid : tid = t.id := by simpa using hop
      exact hnone _ _ ht hid.symm
  | blockMain =>
      have hzero : 0 = t.id := by simpa using hop
      exact hmain hzero.symm
  | @block tid _ hnone =>
      have hid : tid = t.id := by simpa using hop
      exact hnone _ _ ht hid.symm
  | resume _ => simp at hop
  | sleep hu hzero => exact hmain (hu.unique ht ▸ hzero)
  | getQuantums _ => simp at hop

theorem total_le (heffect : Effect lib op outcome lib') : lib.totalQuantum ≤ lib'.totalQuantum := by
  rw [switches_total heffect]
  exact Nat.le_add_right _ _

section Step

variable (h : Scheduled lib)
include h

/-- The thread that is named is not the running one. -/
theorem not_givesUp_other {q : Address} {u : Thread} (hq : lib.Member q u)
    (hne : q ≠ lib.runningThread) (hop : op = .block u.id ∨ op = .terminate u.id) :
    ¬ GivesUp lib op := by
  rintro ⟨t, ht, -, hgives⟩
  have hid : u.id = t.id := by
    rcases hop with rfl | rfl
    · simpa using hgives
    · simpa using hgives
  exact hne (h.core.id_injective hq ht hid)

/-- The thread that sleeps is not the running one. -/
theorem sleeping_ne_running (hp : lib.Member p t) (hsleep : t.sleep = true) :
    p ≠ lib.runningThread := by
  rintro rfl
  have hrunnable := (h.core.queued_iff hp).mp (List.mem_of_mem_head? h.front)
  rw [Thread.Runnable, hsleep] at hrunnable
  cases hrunnable.2

/-- A switch keeps the sleep of all threads. -/
theorem keepsSleep_left {base left : ThreadLibrary} (hkeeps : KeepsSleep p base left)
    (hall : left.allThreads = lib.allThreads) (hd : left.d = lib.d)
    (hdelete : left.threadToDelete = lib.threadToDelete) (env : Env) (next : Address) :
    KeepsSleep p base ((left.switchTo env next).land next) := by
  apply (hkeeps.trans (KeepsSleep.switchTo left env next)).trans
  apply KeepsSleep.land
  intro hpending
  change left.threadToDelete ∉ left.allThreads
  rw [hdelete, hall]
  exact (h.core.pending (hd ▸ hpending)).1

theorem sleepStep (hp : lib.Member p t) (hsleep : t.sleep = true) (hkept : p ∈ lib'.allThreads)
    (heffect : Effect lib op outcome lib') : SleepStep p t lib op lib' := by
  have hne := sleeping_ne_running h hp hsleep
  -- an operation without a switch
  have hquiet : ¬ GivesUp lib op → lib'.totalQuantum = lib.totalQuantum →
      KeepsSleep p lib lib' → SleepStep p t lib op lib' := by
    intro hnot htotal hkeeps
    obtain ⟨t', hp', hsame⟩ := hkeeps t hp
    exact .quiet hnot htotal hp' hsame
  -- a switch of the running thread's own
  have hleft : GivesUp lib op → outcome.switches = true → KeepsSleep p lib lib' →
      SleepStep p t lib op lib' := by
    intro hgives hswitches hkeeps
    obtain ⟨t', hp', hsame⟩ := hkeeps t hp
    have htotal := switches_total heffect
    rw [if_pos hswitches] at htotal
    exact .givesUp hgives htotal hp' hsame
  cases heffect with
  | refused hrefused => exact hquiet (not_givesUp_refused hrefused) rfl (.refl p lib)
  | spawned _ _ _ _ =>
      apply hquiet (not_givesUp (by simp) (by simp) (by simp)) rfl
      intro u hu
      exact ⟨u, h.core.member_addThread_iff.mpr (Or.inr hu), rfl, rfl⟩
  | @terminated q u index hq _ _ _ hother =>
      apply hquiet (not_givesUp_other h hq hother (Or.inr rfl)) rfl
      have hpq : p ≠ q := by
        rintro rfl
        exact h.core.all_nodup.not_mem_erase hkept
      apply KeepsSleep.of_threads
      · exact fun _ => hkept
      · exact (Core.deleteObject_threads _ q p).trans (if_neg hpq)
  | @terminatedSelf u index next rest left ht _ _ hmain _ hlib =>
      have hremoved : KeepsSleep p lib
          ((lib.removeThread lib.runningThread index).setPending lib.runningThread) :=
        KeepsSleep.of_threads (fun hall => (h.core.all_nodup.mem_erase_iff).mpr ⟨hne, hall⟩) rfl
      have hstate := hremoved.trans (KeepsSleep.setState _ next .running)
      apply hleft ⟨u, ht, hmain, Or.inr (Or.inl rfl)⟩ (landing_switches left next)
      rw [hlib]
      apply (hstate.trans (KeepsSleep.begin _ next)).trans
      apply KeepsSleep.land
      exact fun _ => h.core.all_nodup.not_mem_erase
  | blocked hq _ hother _ =>
      apply hquiet (not_givesUp_other h hq hother (Or.inl rfl)) rfl
      exact KeepsSleep.setState lib _ _
  | blockedAlready hq _ hother _ =>
      exact hquiet (not_givesUp_other h hq hother (Or.inl rfl)) rfl (.refl p lib)
  | @blockedSelf u next rest left ht hmain _ hlib =>
      apply hleft ⟨u, ht, hmain, Or.inl rfl⟩ (landing_switches left next)
      rw [hlib]
      apply keepsSleep_left h
      · exact KeepsSleep.setState lib lib.runningThread .blocked
      all_goals rfl
  | resumed _ _ =>
      apply hquiet (not_givesUp (by simp) (by simp) (by simp)) rfl
      exact KeepsSleep.setState lib _ _
  | @slept u numQuantums next rest left ht hmain _ hlib =>
      have hasleep : KeepsSleep p lib
          (lib.modifyThread lib.runningThread (Thread.fallAsleep numQuantums)) := by
        intro u hu
        refine ⟨u, ⟨hu.1, ?_⟩, rfl, rfl⟩
        rw [modifyThread_threads, if_neg hne]
        exact hu.2
      apply hleft ⟨u, ht, hmain, Or.inr (Or.inr ⟨numQuantums, rfl⟩)⟩ (landing_switches left next)
      rw [hlib]
      apply keepsSleep_left h
      · exact hasleep
      all_goals rfl
  | resumedAlready _ _ | gotTid _ | gotTotalQuantums | gotQuantums _ =>
      exact hquiet (not_givesUp (by simp) (by simp) (by simp)) rfl (.refl p lib)
  | @ticked next rest rest' left hqueue hrotated hlib =>
      have hcounted : (lib.countdown lib.allThreads).Member p t.countdown :=
        (Core.member_countdown_iff lib).mpr ⟨t, hp, rfl⟩
      have hkeeps : KeepsSleep p (lib.countdown lib.allThreads) (left.land next) := by
        rw [hlib]
        apply keepsSleep_left h
        · exact KeepsSleep.setState (lib.countdown lib.allThreads) lib.runningThread .ready
        all_goals rfl
      obtain ⟨t', hp', hsame⟩ := hkeeps _ hcounted
      have hbehind : (left.land next).readyQueue =
          lib.readyQueue.tail ++ (woken lib ++ [lib.runningThread]) := by
        rw [land_readyQueue, hlib, hqueue, List.tail_cons, ← List.append_assoc, hrotated]
        rfl
      refine .ticks (not_givesUp (by simp) (by simp) (by simp)) ?_ hp' hsame hbehind
      rw [land_totalQuantum, hlib]
      rfl

end Step

/-! ### The time a thread wakes up -/

def Asleep (p : Address) (lib : ThreadLibrary) : Prop := ∃ t, lib.Member p t ∧ t.sleep = true

/-- The flag is cleared, and the thread is at the end of the queue unless it is blocked. -/
def WokenUp (p : Address) (lib lib' : ThreadLibrary) : Prop :=
  ∃ t, lib'.Member p t ∧ t.sleep = false ∧ (t.state = .blocked → p ∉ lib'.readyQueue) ∧
    (t.state ≠ .blocked → ∃ behind, lib'.readyQueue = lib.readyQueue.tail ++ behind ∧ p ∈ behind)

/-- The thread sleeps until the quantum in which it has to wake up begins. -/
def OnTime (p : Address) (wake : Nat) (lib : ThreadLibrary) (_ : Op) (lib' : ThreadLibrary) : Prop :=
  (lib'.totalQuantum < wake → Asleep p lib') ∧
  (lib.totalQuantum < wake → lib'.totalQuantum = wake → WokenUp p lib lib')

/-- Until then no thread gives up its quantum. -/
def TimerOnly (wake : Nat) (lib : ThreadLibrary) (op : Op) (_ : ThreadLibrary) : Prop :=
  lib.totalQuantum < wake → ¬ GivesUp lib op

/-- One operation, after which the thread is still in the library. -/
def PerformsKeeping (p : Address) : ThreadLibrary → Op → ThreadLibrary → Prop :=
  Meeting Performs fun _ _ lib' => p ∈ lib'.allThreads

/-- The thread sleeps, and will wake up `late` quanta late. -/
def Waiting (p : Address) (wake late : Nat) (lib : ThreadLibrary) : Prop :=
  ∃ t, lib.Member p t ∧ t.sleep = true ∧ t.timeToSleep + lib.totalQuantum = wake + late

theorem Waiting.asleep {wake late : Nat} (hwaiting : Waiting p wake late lib) : Asleep p lib := by
  obtain ⟨t, hp, hsleep, -⟩ := hwaiting
  exact ⟨t, hp, hsleep⟩

theorem WokenUp.not_asleep (hwoken : WokenUp p lib lib') : ¬ Asleep p lib' := by
  rintro ⟨u, hu, hsleep⟩
  obtain ⟨t, ht, hawake, -⟩ := hwoken
  rw [hu.unique ht, hawake] at hsleep
  cases hsleep

theorem countdown_timeToSleep (hsleep : t.sleep = true) :
    t.countdown.timeToSleep = t.timeToSleep - 1 := by
  unfold Thread.countdown
  rw [if_pos hsleep]
  split <;> rfl

/-- What the queue holds in addition, if the thread is in it after a switch. -/
theorem wokenUp_of_awake (h : Scheduled lib) (h' : Scheduled lib') (hp : lib.Member p t)
    (hsleep : t.sleep = true) {t' : Thread} (hp' : lib'.Member p t') (hawake : t'.sleep = false)
    {behind : List Address} (hqueue : lib'.readyQueue = lib.readyQueue.tail ++ behind) :
    WokenUp p lib lib' := by
  have hout : p ∉ lib.readyQueue := by
    rw [h.core.queued_iff hp, Thread.Runnable, hsleep]
    simp
  refine ⟨t', hp', hawake, ?_, ?_⟩
  · intro hblocked
    rw [h'.core.queued_iff hp', Thread.Runnable, hblocked]
    simp
  · intro hstate
    have hin : p ∈ lib'.readyQueue := (h'.core.queued_iff hp').mpr ⟨hstate, hawake⟩
    rw [hqueue] at hin
    refine ⟨behind, hqueue, (List.mem_append.mp hin).resolve_left ?_⟩
    exact fun htail => hout (List.mem_of_mem_tail htail)

/-- One step: a countdown is on time if it was not late before; a quantum without a countdown is one
more to be late by. -/
theorem waiting_step (h : Scheduled lib) (h' : Scheduled lib') {wake late : Nat}
    (hwaiting : Waiting p wake late lib) (hbefore : lib.totalQuantum < wake)
    (hkept : p ∈ lib'.allThreads) (heffect : Effect lib op outcome lib') :
    (lib'.totalQuantum < wake ∧
      ∃ late', Waiting p wake late' lib' ∧ (late' = 0 ↔ late = 0 ∧ ¬ GivesUp lib op)) ∨
    (lib'.totalQuantum = wake ∧ (WokenUp p lib lib' ↔ late = 0 ∧ ¬ GivesUp lib op)) := by
  obtain ⟨t, hp, hsleep, htime⟩ := hwaiting
  cases sleepStep h hp hsleep hkept heffect with
  | quiet hnot htotal hp' hsame =>
      refine Or.inl ⟨htotal ▸ hbefore, late, ⟨_, hp', hsame.1.trans hsleep, ?_⟩, ?_⟩
      · rw [hsame.2, htotal, htime]
      · exact (and_iff_left hnot).symm
  | givesUp hgives htotal hp' hsame =>
      have hasleep := hsame.1.trans hsleep
      by_cases hafter : lib'.totalQuantum < wake
      · refine Or.inl ⟨hafter, late + 1, ⟨_, hp', hasleep, ?_⟩, ?_⟩
        · rw [hsame.2, htotal]
          push_cast
          omega
        · exact iff_of_false (by omega) fun hnot => hnot.2 hgives
      · refine Or.inr ⟨by omega, ?_⟩
        refine iff_of_false ?_ fun hnot => hnot.2 hgives
        exact fun hwoken => hwoken.not_asleep ⟨_, hp', hasleep⟩
  | @ticks t' behind hnot htotal hp' hsame hqueue =>
      have hsleep' : t'.sleep = !decide (t.timeToSleep = 1) := by
        rw [hsame.1, Core.countdown_sleep, hsleep, Bool.true_and]
      have htime' : t'.timeToSleep = t.timeToSleep - 1 := by
        rw [hsame.2, countdown_timeToSleep hsleep]
      by_cases hafter : lib'.totalQuantum < wake
      · refine Or.inl ⟨hafter, late, ⟨_, hp', ?_, ?_⟩, (and_iff_left hnot).symm⟩
        · rw [hsleep', decide_eq_false (by omega)]
          rfl
        · rw [htime', htotal]
          push_cast
          omega
      · refine Or.inr ⟨by omega, ?_⟩
        rw [and_iff_left hnot]
        constructor
        · intro hwoken
          by_contra hlate
          apply hwoken.not_asleep
          refine ⟨_, hp', ?_⟩
          rw [hsleep', decide_eq_false (by omega)]
          rfl
        · intro hlate
          apply wokenUp_of_awake h h' hp hsleep hp' _ hqueue
          rw [hsleep', decide_eq_true (by omega)]
          rfl

/-! ### Runs -/

theorem performsKeeping_deterministic (lib : ThreadLibrary) (op : Op) (lib₁ lib₂ : ThreadLibrary)
    (h₁ : PerformsKeeping p lib op lib₁) (h₂ : PerformsKeeping p lib op lib₂) : lib₁ = lib₂ := by
  obtain ⟨⟨-, outcome₁, hperform₁⟩, -⟩ := h₁
  obtain ⟨⟨-, outcome₂, hperform₂⟩, -⟩ := h₂
  rw [hperform₁] at hperform₂
  cases hperform₂
  rfl

section Run

variable {start : ThreadLibrary} {wake : Nat} {ops : List Op}

/-- Where a run stands: the thread waits, and is late unless the timer alone started all quanta; or
its time has come. -/
theorem waiting_run (hstart : Scheduled start) (hwaiting : Waiting p wake 0 start)
    (hbefore : start.totalQuantum < wake) (hrun : Run (PerformsKeeping p) start ops lib) :
    Scheduled lib ∧
    ((lib.totalQuantum < wake ∧ Run (Meeting (PerformsKeeping p) (OnTime p wake)) start ops lib ∧
      ∃ late, Waiting p wake late lib ∧
        (late = 0 ↔ Run (Meeting (PerformsKeeping p) (TimerOnly wake)) start ops lib)) ∨
    (wake ≤ lib.totalQuantum ∧
      (Run (Meeting (PerformsKeeping p) (OnTime p wake)) start ops lib ↔
        Run (Meeting (PerformsKeeping p) (TimerOnly wake)) start ops lib))) := by
  induction hrun with
  | start => exact ⟨hstart, Or.inl ⟨hbefore, .start, 0, hwaiting, iff_of_true rfl .start⟩⟩
  | @next ops lib lib' op hrun hstep ih =>
      obtain ⟨h, hstands⟩ := ih
      obtain ⟨⟨outcome, heffect⟩, h'⟩ := h.of_performs hstep.1
      refine ⟨h', ?_⟩
      rw [Run.meeting_next_iff performsKeeping_deterministic hrun hstep,
        Run.meeting_next_iff performsKeeping_deterministic hrun hstep]
      rcases hstands with ⟨htime, hontime, late, hlate, hiff⟩ | ⟨htime, hiff⟩
      · have honly : TimerOnly wake lib op lib' ↔ ¬ GivesUp lib op := forall_prop_of_true htime
        rw [← hiff, honly]
        rcases waiting_step h h' hlate htime hstep.2 heffect with
          ⟨htime', late', hlate', hiff'⟩ | ⟨htime', hiff'⟩
        · refine Or.inl ⟨htime', ⟨hontime, fun _ => hlate'.asleep, fun _ heq => ?_⟩,
            late', hlate', hiff'⟩
          omega
        · refine Or.inr ⟨htime'.ge, ?_⟩
          rw [← hiff', and_iff_right hontime]
          constructor
          · exact fun hall => hall.2 htime htime'
          · exact fun hwoken => ⟨fun hlt => by omega, fun _ _ => hwoken⟩
      · have hafter := htime.trans (total_le heffect)
        have hdone : OnTime p wake lib op lib' := ⟨fun hlt => by omega, fun hlt => by omega⟩
        have honly : TimerOnly wake lib op lib' := fun hlt => by omega
        exact Or.inr ⟨hafter, by rw [and_iff_left hdone, and_iff_left honly, hiff]⟩

end Run

/-- The state in which a thread has just gone to sleep. -/
theorem member_of_sleep (h : Scheduled lib) (ht : lib.Member lib.runningThread t)
    (hmain : t.id ≠ 0) {numQuantums : Int32}
    (heffect : Effect lib (.sleep numQuantums) outcome lib') :
    ∃ t', lib'.Member lib.runningThread t' ∧ t'.sleep = true ∧
      t'.timeToSleep = numQuantums.toInt := by
  cases heffect with
  | refused hrefused =>
      cases hrefused with
      | sleep hu hzero => exact absurd (hu.unique ht ▸ hzero) hmain
  | @slept u _ next rest left hu _ _ hlib =>
      obtain rfl := hu.unique ht
      have hkeeps : KeepsSleep lib.runningThread
          (lib.modifyThread lib.runningThread (Thread.fallAsleep numQuantums)) (left.land next) := by
        rw [hlib]
        apply keepsSleep_left h
        · exact KeepsSleep.refl _ _
        all_goals rfl
      obtain ⟨t', hp', hasleep, htime⟩ := hkeeps _ (SameThreads.member_modify hu _)
      exact ⟨t', hp', hasleep, htime⟩

theorem waiting_of_sleep (h : Scheduled lib) (ht : lib.Member lib.runningThread t)
    (hmain : t.id ≠ 0) {numQuantums : Int32} (hpos : 0 < numQuantums.toInt)
    (hsleep : Performs lib (.sleep numQuantums) lib') :
    Waiting lib.runningThread (lib'.totalQuantum + numQuantums.toInt.toNat) 0 lib' := by
  obtain ⟨⟨outcome, heffect⟩, -⟩ := h.of_performs hsleep
  obtain ⟨t', hp', hasleep, htime⟩ := member_of_sleep h ht hmain heffect
  refine ⟨t', hp', hasleep, ?_⟩
  push_cast
  omega

/-- A thread that goes to sleep for `num_quantums` wakes up on time in a run, if and only if the run
does not reach that time, or all the quanta until then are started by the timer. -/
theorem sleep_onTime_iff (hreach : Reachable lib) (ht : lib.Member lib.runningThread t)
    (hmain : t.id ≠ 0) {numQuantums : Int32} (hpos : 1 ≤ numQuantums) {start : ThreadLibrary}
    (hsleep : Performs lib (.sleep numQuantums) start) {ops : List Op}
    (hrun : Run (PerformsKeeping lib.runningThread) start ops lib') :
    Asleep lib.runningThread start ∧
    (Run (Meeting (PerformsKeeping lib.runningThread)
        (OnTime lib.runningThread (start.totalQuantum + numQuantums.toInt.toNat))) start ops lib' ↔
      lib'.totalQuantum < start.totalQuantum + numQuantums.toInt.toNat ∨
      Run (Meeting (PerformsKeeping lib.runningThread)
        (TimerOnly (start.totalQuantum + numQuantums.toInt.toNat))) start ops lib') := by
  have hposInt : 0 < numQuantums.toInt := Int32.le_iff_toInt_le.mp hpos
  have hwaiting := waiting_of_sleep hreach.scheduled ht hmain hposInt hsleep
  have hstart := (hreach.scheduled.of_performs hsleep).2
  refine ⟨hwaiting.asleep, ?_⟩
  rcases (waiting_run hstart hwaiting (by omega) hrun).2 with
    ⟨htime, hontime, -⟩ | ⟨htime, hiff⟩
  · exact iff_of_true hontime (Or.inl htime)
  · rw [hiff, or_iff_right (by omega)]

/-- Thread 1 goes to sleep for one quantum, and thread 2 blocks itself. -/
def lateSleep : Option (ThreadLibrary × ThreadLibrary × ThreadLibrary) := do
  let lib ← performAll [.spawn 7, .spawn 7, .tick] .initialized
  let start ← performAll [.sleep 1] lib
  let lib' ← performAll [.block 2] start
  pure (lib, start, lib')

theorem performs_performAll (hperform : performAll [op] lib = some lib') : Performs lib op lib' := by
  rw [performAll] at hperform
  split at hperform
  · cases hperform
  · rename_i hmain
    obtain ⟨⟨outcome, middle⟩, hop, hrest⟩ := Option.bind_eq_some_iff.mp hperform
    cases hrest
    exact ⟨hmain, outcome, hop⟩

theorem exists_lateSleep : ∃ lib start lib' t, Reachable lib ∧ lib.Member lib.runningThread t ∧
    t.id ≠ 0 ∧ Performs lib (.sleep 1) start ∧
    PerformsKeeping lib.runningThread start (.block 2) lib' ∧
    lib'.totalQuantum = start.totalQuantum + 1 ∧ Asleep lib.runningThread lib' := by
  have hlate : lateSleep.any (fun (lib, start, lib') =>
      lib.allThreads.contains lib.runningThread &&
      (lib.threads lib.runningThread).any (fun t => t.id != 0) &&
      lib'.totalQuantum == start.totalQuantum + 1 &&
      lib'.allThreads.contains lib.runningThread &&
      (lib'.threads lib.runningThread).any fun t => t.sleep) = true := by
    decide +kernel
  obtain ⟨⟨lib, start, lib'⟩, hruns, hlib⟩ := (Option.any_eq_true _ _).mp hlate
  simp only [lateSleep, Option.bind_eq_bind, Option.bind_eq_some_iff, Option.pure_def,
    Option.some.injEq, Prod.mk.injEq] at hruns
  obtain ⟨lib, hspawned, start, hslept, lib', hblocked, rfl, rfl, rfl⟩ := hruns
  simp only [Bool.and_eq_true, List.contains_eq_mem, decide_eq_true_eq, beq_iff_eq,
    Option.any_eq_true, bne_iff_ne] at hlib
  obtain ⟨⟨⟨⟨hall, t, ht, hmain⟩, htotal⟩, hall'⟩, t', ht', hsleep⟩ := hlib
  exact ⟨lib, start, lib', t, reachable_performAll hspawned, ⟨hall, ht⟩, hmain,
    performs_performAll hslept, ⟨performs_performAll hblocked, hall'⟩, htotal,
    t', ⟨hall', ht'⟩, hsleep⟩

theorem not_sleep_onTime : ¬ ∀ (lib start lib' : ThreadLibrary) (t : Thread) (numQuantums : Int32)
    (ops : List Op), Reachable lib → lib.Member lib.runningThread t → t.id ≠ 0 → 1 ≤ numQuantums →
    Performs lib (.sleep numQuantums) start →
    Run (PerformsKeeping lib.runningThread) start ops lib' →
    Run (Meeting (PerformsKeeping lib.runningThread)
      (OnTime lib.runningThread (start.totalQuantum + numQuantums.toInt.toNat))) start ops lib' := by
  intro hall
  obtain ⟨lib, start, lib', t, hreach, ht, hmain, hsleep, hblock, htotal, hasleep⟩ :=
    exists_lateSleep
  have hrun := hall lib start lib' t 1 [.block 2] hreach ht hmain (by decide) hsleep
    (Run.start.next hblock)
  have hontime := ((Run.meeting_next_iff performsKeeping_deterministic .start hblock).mp hrun).2
  have hwoken := hontime.2 (Nat.lt_succ_self _) htotal
  exact hwoken.not_asleep hasleep

theorem sleep_onTime_lateSleep : ∃ lib start lib', Performs lib (.sleep 1) start ∧
    (Run (Meeting (PerformsKeeping lib.runningThread)
        (OnTime lib.runningThread (start.totalQuantum + 1))) start [.block 2] lib' ↔
      lib'.totalQuantum < start.totalQuantum + 1 ∨
      Run (Meeting (PerformsKeeping lib.runningThread) (TimerOnly (start.totalQuantum + 1)))
        start [.block 2] lib') := by
  obtain ⟨lib, start, lib', t, hreach, ht, hmain, hsleep, hblock, -, -⟩ := exists_lateSleep
  refine ⟨lib, start, lib', hsleep, ?_⟩
  exact (sleep_onTime_iff hreach ht hmain (by decide) hsleep (Run.start.next hblock)).2

end OsExercises.Uthreads
