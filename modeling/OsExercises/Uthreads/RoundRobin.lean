import OsExercises.Uthreads.Fields
import OsExercises.Library.Queue

/-!
# Round robin

The threads that wait stand in the queue behind the running one. No operation puts a thread before
them or makes two of them change places, and every quantum that starts takes the running thread from
the front: so a thread at position `k` runs after at most `k` quanta, if nobody blocks or terminates
it.
-/

namespace OsExercises.Uthreads

open ThreadLibrary

variable {lib lib' : ThreadLibrary} {op : Op} {outcome : Outcome} {p : Address} {t : Thread}

/-- The thread waits for its turn. -/
def InLine (lib : ThreadLibrary) (p : Address) : Prop := p ∈ lib.readyQueue.tail

/-- The operation neither blocks nor terminates the thread. -/
def Spares (id : Int32) (op : Op) : Prop := op ≠ .block id ∧ op ≠ .terminate id

/-- The queue that is left when the quantum of the running thread is over. -/
def remaining (lib : ThreadLibrary) (outcome : Outcome) : List Address :=
  if outcome.switches then lib.readyQueue.tail else lib.readyQueue

/-- The operation spares the thread at the address. -/
def SparedAt (lib : ThreadLibrary) (op : Op) (p : Address) : Prop :=
  ∀ t, lib.Member p t → Spares t.id op

/-! ### One step -/

section Step

variable (h : Scheduled lib)
include h

theorem not_mem_queue_of_asleep (hp : lib.Member p t) (hnot : ¬ t.Runnable) : p ∉ lib.readyQueue :=
  fun hqueue => hnot ((h.core.queued_iff hp).mp hqueue)

theorem not_mem_woken (hqueue : p ∈ lib.readyQueue) : p ∉ woken lib := by
  intro hwoken
  obtain ⟨hall, hwakes⟩ := List.mem_filter.mp hwoken
  obtain ⟨t, ht, hsleeps⟩ := (Option.any_eq_true _ _).mp hwakes
  have hp : lib.Member p t := ⟨hall, ht⟩
  have hawake := ((h.core.queued_iff hp).mp hqueue).2
  simp [Thread.wakesUp, hawake] at hsleeps

theorem running_not_inLine : ¬ InLine lib lib.runningThread := by
  obtain ⟨rest, hqueue⟩ := List.head?_eq_some_iff.mp h.front
  have hnodup := h.core.queue_nodup
  rw [hqueue] at hnodup
  rw [InLine, hqueue]
  exact (List.nodup_cons.mp hnodup).1

/-- The step lemma: what is left of the queue keeps its order, and what joins it stands behind. -/
theorem continues_of_effect (heffect : Effect lib op outcome lib') :
    Continues (remaining lib outcome) lib'.readyQueue (SparedAt lib op) := by
  have hleft : ∀ {next : Address} {left : ThreadLibrary}, left.readyQueue = lib.readyQueue.tail →
      Continues (remaining lib (left.landing next)) (left.land next).readyQueue (SparedAt lib op) := by
    intro next left hqueue
    rw [remaining, if_pos (landing_switches left next), land_readyQueue, hqueue]
    exact Continues.refl _ _
  cases heffect with
  | spawned _ _ _ _ =>
      apply Continues.append
      intro p hp hnew
      obtain ⟨t, -, ht⟩ := h.core.member_of_queue hp
      rw [List.mem_singleton.mp hnew, h.core.allocated_fresh] at ht
      cases ht
  | terminated hp _ _ _ _ =>
      apply Continues.erase
      exact fun hspared => (hspared _ hp).2 rfl
  | terminatedSelf _ _ _ _ hqueue hlib =>
      apply hleft
      rw [hlib]
      change lib.readyQueue.erase lib.runningThread = _
      rw [hqueue, List.erase_cons_head]
      rfl
  | blocked hp _ _ _ =>
      apply Continues.erase
      exact fun hspared => (hspared _ hp).1 rfl
  | blockedSelf _ _ hqueue hlib =>
      apply hleft
      rw [hlib, hqueue]
      rfl
  | @resumed p t hp hblocked =>
      change Continues lib.readyQueue (if t.sleep then lib.readyQueue else lib.readyQueue ++ [p]) _
      split
      · exact Continues.refl _ _
      · apply Continues.append
        intro q hq hback
        rw [List.mem_singleton.mp hback] at hq
        exact not_mem_queue_of_asleep h hp (fun hrunnable => hrunnable.1 hblocked) hq
  | slept _ _ hqueue hlib =>
      apply hleft
      rw [hlib, hqueue]
      rfl
  | refused _ | blockedAlready _ _ _ _ | resumedAlready _ _ | gotTid _ | gotTotalQuantums
  | gotQuantums _ =>
      exact Continues.refl _ _
  | @ticked next rest rest' left hqueue hrotated hlib =>
      have hafter : left.readyQueue = rest ++ (woken lib ++ [lib.runningThread]) := by
        rw [hlib, ← List.append_assoc, hrotated]
        rfl
      rw [remaining, if_pos (landing_switches left next), land_readyQueue, hafter, hqueue]
      apply Continues.append
      intro p hp hbehind
      rcases List.mem_append.mp hbehind with hwoken | hself
      · have hmem : p ∈ lib.readyQueue := by
          rw [hqueue]
          exact List.mem_cons_of_mem _ hp
        exact not_mem_woken h hmem hwoken
      · rw [List.mem_singleton.mp hself] at hp
        apply running_not_inLine h
        rw [InLine, hqueue]
        exact hp

end Step

/-! ### Where a thread that waits stands -/

theorem inLine_remaining (outcome : Outcome) (hline : InLine lib p) : p ∈ remaining lib outcome := by
  rw [remaining]
  split
  · exact hline
  · exact List.mem_of_mem_tail hline

section Step

variable (h : Scheduled lib)
include h

theorem remaining_nodup (outcome : Outcome) : (remaining lib outcome).Nodup := by
  rw [remaining]
  split
  · exact h.core.queue_nodup.tail
  · exact h.core.queue_nodup

/-- A thread that waits loses no place, and gains one when a quantum starts. -/
theorem position_step (heffect : Effect lib op outcome lib') (hp : lib.Member p t)
    (hspared : Spares t.id op) {k : Nat} (hk : 1 ≤ k) (hposition : lib.readyQueue[k]? = some p) :
    ∃ k', k' + (if outcome.switches then 1 else 0) ≤ k ∧ lib'.readyQueue[k']? = some p := by
  have hstays : SparedAt lib op p := by
    intro u hu
    rw [hu.unique hp]
    exact hspared
  have hbefore : (remaining lib outcome)[k - if outcome.switches then 1 else 0]? = some p := by
    rw [remaining]
    split
    · rw [List.getElem?_tail, Nat.sub_add_cancel hk, hposition]
    · exact hposition
  obtain ⟨k', hle, hafter⟩ :=
    (continues_of_effect h heffect).exists_position (remaining_nodup h outcome) hbefore hstays
  refine ⟨k', ?_, hafter⟩
  have hone : (if outcome.switches then 1 else 0) ≤ k := by split <;> omega
  calc k' + (if outcome.switches then 1 else 0)
    _ ≤ (k - if outcome.switches then 1 else 0) + (if outcome.switches then 1 else 0) :=
        Nat.add_le_add_right hle _
    _ = k := Nat.sub_add_cancel hone

/-- The running thread apart, the queue and what is left of it have one order. -/
theorem ahead_remaining_iff {q : Address} (outcome : Outcome) (hp : InLine lib p)
    (hq : InLine lib q) : Ahead (remaining lib outcome) p q ↔ Ahead lib.readyQueue p q := by
  have hnodup := h.core.queue_nodup
  have htail : lib.readyQueue.tail.Sublist (remaining lib outcome) := by
    rw [remaining]
    split
    · exact List.Sublist.refl _
    · exact List.tail_sublist _
  exact ahead_iff_of_sublist htail (List.tail_sublist _) (remaining_nodup h outcome) hnodup hp hq

theorem order_step (heffect : Effect lib op outcome lib') {q : Address} (hp : InLine lib p)
    (hq : InLine lib q) (hp' : InLine lib' p) (hq' : InLine lib' q) :
    Ahead lib.readyQueue p q ↔ Ahead lib'.readyQueue p q := by
  have hnodup' := (h.of_effect heffect).core.queue_nodup
  rw [← ahead_remaining_iff h outcome hp hq]
  apply (continues_of_effect h heffect).ahead_iff (remaining_nodup h outcome) hnodup'
  · exact inLine_remaining outcome hp
  · exact inLine_remaining outcome hq
  · exact List.mem_of_mem_tail hp'
  · exact List.mem_of_mem_tail hq'

end Step

/-! ### Runs -/

/-- The operations of a run that spares a thread. -/
def PerformsSparing (id : Int32) : ThreadLibrary → Op → ThreadLibrary → Prop :=
  Meeting Performs fun _ op _ => Spares id op

/-- The thread has its turn. -/
def HasTurn (p : Address) (id : Int32) (lib : ThreadLibrary) : Prop :=
  ∃ t, lib.Member p t ∧ t.id = id ∧ t.state = .running ∧ lib.runningThread = p

/-- The thread waits for its turn, which comes before the quantum is over. -/
def InLineUntil (p : Address) (id : Int32) (deadline : Nat) (lib : ThreadLibrary) : Prop :=
  ∃ t k, lib.Member p t ∧ t.id = id ∧ 1 ≤ k ∧ lib.readyQueue[k]? = some p ∧
    lib.totalQuantum + k ≤ deadline

variable {start : ThreadLibrary} {ops : List Op} {id : Int32} {deadline : Nat}

theorem Scheduled.hasTurn (h : Scheduled lib) (hp : lib.Member p t)
    (hposition : lib.readyQueue[0]? = some p) : HasTurn p t.id lib := by
  have hrunning : lib.runningThread = p := by
    rw [← List.head?_eq_getElem?, h.front] at hposition
    exact Option.some.inj hposition
  exact ⟨t, hp, rfl, (h.core.running_iff hp).mpr (congrArg some hrunning), hrunning⟩

/-- The step lemma: a thread that waits goes on waiting, or it has its turn in time. -/
theorem inLineUntil_step (h : Scheduled lib) (hline : InLineUntil p id deadline lib)
    (hstep : PerformsSparing id lib op lib') :
    InLineUntil p id deadline lib' ∨ (HasTurn p id lib' ∧ lib'.totalQuantum ≤ deadline) := by
  obtain ⟨t, k, hp, rfl, hk, hposition, hle⟩ := hline
  obtain ⟨hperforms, hspared⟩ := hstep
  obtain ⟨⟨outcome, heffect⟩, h'⟩ := h.of_performs hperforms
  obtain ⟨k', hle', hposition'⟩ := position_step h heffect hp hspared hk hposition
  obtain ⟨t', hp'⟩ := h'.core.member_of_queue (List.mem_of_getElem? hposition')
  have hid : t'.id = t.id := id_of_effect h heffect hp.2 hp'.2
  have htotal := switches_total heffect
  by_cases hfront : k' = 0
  · subst hfront
    right
    rw [← hid]
    exact ⟨h'.hasTurn hp' hposition', by omega⟩
  · left
    exact ⟨t', k', hp', hid, Nat.one_le_iff_ne_zero.mpr hfront, hposition', by omega⟩

/-- The run lemma. -/
theorem inLineUntil_run (h : Scheduled start) (hline : InLineUntil p id deadline start)
    (hrun : Run (PerformsSparing id) start ops lib) :
    (Scheduled lib ∧ InLineUntil p id deadline lib) ∨
      ∃ before after middle, ops = before ++ after ∧ Run Performs start before middle ∧
        Run Performs middle after lib ∧ HasTurn p id middle ∧ middle.totalQuantum ≤ deadline := by
  induction hrun with
  | start => exact Or.inl ⟨h, hline⟩
  | @next ops lib lib' op hbefore hlast ih =>
      rcases ih with ⟨hscheduled, hwaiting⟩ | ⟨before, after, middle, rfl, hfirst, hrest, hturn⟩
      · rcases inLineUntil_step hscheduled hwaiting hlast with hwaiting' | ⟨hturn, hle⟩
        · exact Or.inl ⟨(hscheduled.of_performs hlast.1).2, hwaiting'⟩
        · right
          have hall : Run Performs start (ops ++ [op]) lib' :=
            (hbefore.mono fun _ _ _ hstep => hstep.1).next hlast.1
          exact ⟨ops ++ [op], [], lib', (List.append_nil _).symm, hall, .start, hturn, hle⟩
      · right
        exact ⟨before, after ++ [op], middle, List.append_assoc _ _ _, hfirst,
          hrest.next hlast.1, hturn⟩

/-- Round robin and bounded waiting. -/
theorem round_robin (hreach : Reachable lib) (hp : lib.Member p t) {k : Nat} (hk : 1 ≤ k)
    (hposition : lib.readyQueue[k]? = some p) :
    (∀ op outcome lib', op ≠ .terminate 0 → Spares t.id op →
      op.perform lib = some (outcome, lib') →
      lib'.totalQuantum = lib.totalQuantum + (if outcome.switches then 1 else 0) ∧
      (∃ k' ≤ k, lib'.readyQueue[k']? = some p ∧ (outcome.switches = true → k' ≤ k - 1)) ∧
      ∀ q r, InLine lib q → InLine lib r → InLine lib' q → InLine lib' r →
        (Ahead lib.readyQueue q r ↔ Ahead lib'.readyQueue q r)) ∧
    ∀ ops lib', Run (PerformsSparing t.id) lib ops lib' →
      lib.totalQuantum + k ≤ lib'.totalQuantum →
      ∃ before after middle, ops = before ++ after ∧ Run Performs lib before middle ∧
        Run Performs middle after lib' ∧ HasTurn p t.id middle ∧
        middle.totalQuantum ≤ lib.totalQuantum + k := by
  have h := hreach.scheduled
  constructor
  · intro op outcome lib' hmain hspared hperform
    obtain ⟨heffect, -⟩ := h.of_perform hmain hperform
    refine ⟨switches_total heffect, ?_, fun q r => order_step h heffect⟩
    obtain ⟨k', hle, hafter⟩ := position_step h heffect hp hspared hk hposition
    refine ⟨k', ?_, hafter, ?_⟩
    · exact Nat.le_trans (Nat.le_add_right _ _) hle
    · intro hswitches
      rw [if_pos hswitches] at hle
      exact Nat.le_sub_one_of_lt hle
  · intro ops lib' hrun htotal
    have hline : InLineUntil p t.id (lib.totalQuantum + k) lib :=
      ⟨t, k, hp, rfl, hk, hposition, Nat.le_refl _⟩
    rcases inLineUntil_run h hline hrun with ⟨-, t', k', -, -, hpos, -, hle⟩ | hturn
    · omega
    · exact hturn

theorem round_robin_spawn : ∃ lib t, Reachable lib ∧ lib.Member 2 t ∧ lib.readyQueue[1]? = some 2 ∧
    ∀ ops lib', Run (PerformsSparing t.id) lib ops lib' →
      lib.totalQuantum + 1 ≤ lib'.totalQuantum →
      ∃ before after middle, ops = before ++ after ∧ Run Performs lib before middle ∧
        Run Performs middle after lib' ∧ HasTurn 2 t.id middle ∧
        middle.totalQuantum ≤ lib.totalQuantum + 1 := by
  have hspawn : (performAll [.spawn 7] .initialized).any (fun lib =>
      lib.readyQueue[1]? == some 2 && lib.allThreads.contains 2 && (lib.threads 2).isSome) = true := by
    decide +kernel
  obtain ⟨lib, hperform, hlib⟩ := (Option.any_eq_true _ _).mp hspawn
  simp only [Bool.and_eq_true, beq_iff_eq, List.contains_eq_mem, decide_eq_true_eq] at hlib
  obtain ⟨⟨hposition, hall⟩, hsome⟩ := hlib
  obtain ⟨t, ht⟩ := Option.isSome_iff_exists.mp hsome
  have hreach := reachable_performAll hperform
  exact ⟨lib, t, hreach, ⟨hall, ht⟩, hposition,
    (round_robin hreach ⟨hall, ht⟩ (Nat.le_refl 1) hposition).2⟩

end OsExercises.Uthreads
