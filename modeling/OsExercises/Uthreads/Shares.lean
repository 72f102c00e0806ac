import OsExercises.Uthreads.RoundRobin

/-!
# Equal shares

Of two threads that stay in the queue each has its quantum in turn: the one that had the last of the
two stands behind the other one until that has had its own, whatever the other threads do in the
meantime. So their numbers of quanta differ by one at most, over any stretch of a run.
-/

namespace OsExercises.Uthreads

open ThreadLibrary

variable {lib lib' : ThreadLibrary} {op : Op} {outcome : Outcome} {p q : Address} {t t' u u' : Thread}

/-- Of the two threads the first one begins a quantum before the second one does. -/
def BeginsFirst (lib : ThreadLibrary) (p q : Address) : Prop :=
  lib.runningThread ≠ p ∧ (lib.runningThread = q ∨ Ahead lib.readyQueue p q)

open Classical in
/-- 1 as long as the first of the two threads is to begin a quantum before the second one does. -/
noncomputable def turn (lib : ThreadLibrary) (p q : Address) : Nat :=
  if BeginsFirst lib p q then 1 else 0

/-- The two threads are in the queue after the operation. -/
def PerformsQueued (p q : Address) : ThreadLibrary → Op → ThreadLibrary → Prop :=
  Meeting Performs fun _ _ lib' => p ∈ lib'.readyQueue ∧ q ∈ lib'.readyQueue

/-- A quantum counts for the thread that runs next. -/
theorem counter_of_effect (h : Scheduled lib) (heffect : Effect lib op outcome lib')
    (ht : lib.threads p = some t) (ht' : lib'.threads p = some t') :
    t'.quantumCounter = t.quantumCounter +
      if outcome.switches ∧ p = lib'.runningThread then 1 else 0 := by
  have hfield : lib.field Thread.quantumCounter p = some t.quantumCounter :=
    congrArg (Option.map Thread.quantumCounter) ht
  have hfield' : lib'.field Thread.quantumCounter p = some t'.quantumCounter :=
    congrArg (Option.map Thread.quantumCounter) ht'
  have hsame : lib'.field Thread.quantumCounter p = none ∨
      lib'.field Thread.quantumCounter p = lib.field Thread.quantumCounter p →
      t'.quantumCounter = t.quantumCounter := by
    rw [hfield, hfield']
    rintro (hnone | hsome)
    · cases hnone
    · exact Option.some.inj hsome
  cases field_step steady_quantumCounter heffect with
  | quiet hswitches _ _ _ hkept =>
      rw [if_neg (by simp [hswitches]), hsame (hkept p), Nat.add_zero]
  | spawned hswitches _ _ _ hnew =>
      have hne : p ≠ lib.allocated + 1 := by
        rintro rfl
        rw [h.core.allocated_fresh] at ht
        cases ht
      rw [if_neg (by simp [hswitches]), Nat.add_zero]
      apply hsame
      rw [hnew, Function.update_of_ne hne]
      exact Or.inr rfl
  | switched hswitches _ _ hkept =>
      have hcounter := hkept p
      by_cases heq : p = lib'.runningThread
      · rw [← heq, Function.update_self, hfield, hfield'] at hcounter
        rw [if_pos ⟨hswitches, heq⟩]
        exact Option.some.inj (hcounter.resolve_left (by simp))
      · rw [Function.update_of_ne heq] at hcounter
        rw [if_neg fun hboth => heq hboth.2, hsame hcounter, Nat.add_zero]

theorem running_of_quiet (heffect : Effect lib op outcome lib') (hswitches : outcome.switches = false) :
    lib'.runningThread = lib.runningThread := by
  cases field_step steady_id heffect with
  | quiet _ _ hrunning _ _ => exact hrunning
  | spawned _ _ hrunning _ _ => exact hrunning
  | switched hswitched _ _ _ =>
      rw [hswitches] at hswitched
      cases hswitched

/-! ### One step -/

section Step

variable (h : Scheduled lib) (heffect : Effect lib op outcome lib') (hne : p ≠ q)
  (hp : p ∈ lib.readyQueue) (hq : q ∈ lib.readyQueue) (hp' : p ∈ lib'.readyQueue)
  (hq' : q ∈ lib'.readyQueue)

include h in
theorem inLine_of_ne (hq : q ∈ lib.readyQueue) (hother : lib.runningThread ≠ q) : InLine lib q := by
  obtain ⟨rest, hqueue⟩ := List.head?_eq_some_iff.mp h.front
  rw [InLine, hqueue]
  rw [hqueue] at hq
  exact (List.mem_cons.mp hq).resolve_left fun heq => hother heq.symm

include h hne hp hq in
/-- One of the two is first. -/
theorem not_beginsFirst_iff : ¬ BeginsFirst lib p q ↔ BeginsFirst lib q p := by
  have hnodup := h.core.queue_nodup
  unfold BeginsFirst
  by_cases hself : lib.runningThread = p
  · refine iff_of_true (fun hfirst => hfirst.1 hself) ⟨fun heq => hne (hself.symm.trans heq), ?_⟩
    exact Or.inl hself
  · by_cases hother : lib.runningThread = q
    · exact iff_of_false (fun hnot => hnot ⟨hself, Or.inl hother⟩) fun hfirst => hfirst.1 hother
    · rcases ahead_or_ahead hp hq hne with hahead | hahead
      · refine iff_of_false (fun hnot => hnot ⟨hself, Or.inr hahead⟩) fun hfirst => ?_
        exact (hfirst.2.resolve_left hself).asymm hnodup hahead
      · refine iff_of_true (fun hfirst => ?_) ⟨hother, Or.inr hahead⟩
        exact (hfirst.2.resolve_left hother).asymm hnodup hahead

include h heffect hne hp hq hp' hq'

/-- A quantum that ends puts the two into the order in which they begin theirs. -/
theorem ahead_of_switch (hswitches : outcome.switches = true) (hfirst : BeginsFirst lib p q) :
    Ahead lib'.readyQueue p q := by
  have hcontinues := continues_of_effect h heffect
  have hnodup' := (h.of_effect heffect).core.queue_nodup
  have hremaining : remaining lib outcome = lib.readyQueue.tail := if_pos hswitches
  rw [hremaining] at hcontinues
  have hpline := inLine_of_ne h hp hfirst.1
  rcases hfirst.2 with hrunning | hahead
  · apply hcontinues.ahead_joined hpline hp' ?_ hq'
    rw [← hrunning]
    exact running_not_inLine h
  · have hqline : InLine lib q := by
      refine inLine_of_ne h hq ?_
      rintro rfl
      exact (ahead_of_front h.front hp hne).asymm h.core.queue_nodup hahead
    have horder := ahead_remaining_iff h outcome hpline hqline
    rw [hremaining] at horder
    exact (hcontinues.ahead_iff h.core.queue_nodup.tail hnodup' hpline hqline hp' hq').mp
      (horder.mpr hahead)

/-- Who begins a quantum was first. -/
theorem beginsFirst_of_begins (hswitches : outcome.switches = true)
    (hrunning : lib'.runningThread = p) : BeginsFirst lib p q := by
  have h' := h.of_effect heffect
  by_contra hnot
  have hfirst := (not_beginsFirst_iff h hne hp hq).mp hnot
  have hbehind := ahead_of_switch h heffect hne.symm hq hp hq' hp' hswitches hfirst
  have hfront := h'.front
  rw [hrunning] at hfront
  exact (ahead_of_front hfront hq' hne.symm).asymm h'.core.queue_nodup hbehind

/-- Who is first stays so until its quantum begins. -/
theorem beginsFirst_kept (hfirst : BeginsFirst lib p q)
    (hnot : ¬ (outcome.switches = true ∧ lib'.runningThread = p)) : BeginsFirst lib' p q := by
  cases hswitches : outcome.switches with
  | true =>
      refine ⟨fun hrunning => hnot ⟨hswitches, hrunning⟩, Or.inr ?_⟩
      exact ahead_of_switch h heffect hne hp hq hp' hq' hswitches hfirst
  | false =>
      have hcontinues := continues_of_effect h heffect
      have hnodup' := (h.of_effect heffect).core.queue_nodup
      have hremaining : remaining lib outcome = lib.readyQueue := by
        rw [remaining, if_neg (by simp [hswitches])]
      rw [hremaining] at hcontinues
      rw [BeginsFirst, running_of_quiet heffect hswitches,
        ← hcontinues.ahead_iff h.core.queue_nodup hnodup' hp hq hp' hq']
      exact hfirst

/-- The numbers of quanta and whose turn it is change together. -/
theorem turn_step (ht : lib.threads p = some t) (ht' : lib'.threads p = some t')
    (hu : lib.threads q = some u) (hu' : lib'.threads q = some u') :
    t'.quantumCounter + u.quantumCounter + turn lib' p q =
      t.quantumCounter + u'.quantumCounter + turn lib p q := by
  have hcounter := counter_of_effect h heffect ht ht'
  have hcounter' := counter_of_effect h heffect hu hu'
  by_cases hpbegins : outcome.switches = true ∧ lib'.runningThread = p
  · have hfirst : BeginsFirst lib p q :=
      beginsFirst_of_begins h heffect hne hp hq hp' hq' hpbegins.1 hpbegins.2
    have hnot : ¬ BeginsFirst lib' p q := fun hfirst' => hfirst'.1 hpbegins.2
    rw [if_pos ⟨hpbegins.1, hpbegins.2.symm⟩] at hcounter
    rw [if_neg fun hboth => hne (hpbegins.2.symm.trans hboth.2.symm)] at hcounter'
    rw [turn, turn, if_pos hfirst, if_neg hnot]
    omega
  rw [if_neg fun hboth => hpbegins ⟨hboth.1, hboth.2.symm⟩] at hcounter
  by_cases hqbegins : outcome.switches = true ∧ lib'.runningThread = q
  · have hnot : ¬ BeginsFirst lib p q := (not_beginsFirst_iff h hne hp hq).mpr
      (beginsFirst_of_begins h heffect hne.symm hq hp hq' hp' hqbegins.1 hqbegins.2)
    have hfirst : BeginsFirst lib' p q :=
      ⟨fun hrunning => hpbegins ⟨hqbegins.1, hrunning⟩, Or.inl hqbegins.2⟩
    rw [if_pos ⟨hqbegins.1, hqbegins.2.symm⟩] at hcounter'
    rw [turn, turn, if_neg hnot, if_pos hfirst]
    omega
  · have hsame : BeginsFirst lib' p q ↔ BeginsFirst lib p q := by
      have h' := h.of_effect heffect
      refine ⟨fun hfirst' => ?_, fun hfirst => ?_⟩
      · -- otherwise the other thread is first, and stays so
        by_contra hnot
        have hother := (not_beginsFirst_iff h hne hp hq).mp hnot
        exact (not_beginsFirst_iff h' hne hp' hq').mpr
          (beginsFirst_kept h heffect hne.symm hq hp hq' hp' hother hqbegins) hfirst'
      · exact beginsFirst_kept h heffect hne hp hq hp' hq' hfirst hpbegins
    rw [if_neg fun hboth => hqbegins ⟨hboth.1, hboth.2.symm⟩] at hcounter'
    have hturn : turn lib' p q = turn lib p q := by
      classical
      exact if_congr hsame rfl rfl
    omega

end Step

/-! ### Runs -/

theorem turn_le_one (lib : ThreadLibrary) (p q : Address) : turn lib p q ≤ 1 := by
  rw [turn]
  split
  · exact le_rfl
  · exact Nat.zero_le 1

variable {start : ThreadLibrary} {ops : List Op}

/-- The run lemma. -/
theorem turn_run (h : Scheduled start) (hne : p ≠ q) (hp : p ∈ start.readyQueue)
    (hq : q ∈ start.readyQueue) (ht : start.threads p = some t) (hu : start.threads q = some u)
    (hrun : Run (PerformsQueued p q) start ops lib) :
    Scheduled lib ∧ p ∈ lib.readyQueue ∧ q ∈ lib.readyQueue ∧
      ∀ t' u', lib.threads p = some t' → lib.threads q = some u' →
        t'.quantumCounter + u.quantumCounter + turn lib p q =
          t.quantumCounter + u'.quantumCounter + turn start p q := by
  induction hrun with
  | start =>
      refine ⟨h, hp, hq, fun t' u' ht' hu' => ?_⟩
      obtain rfl := Option.some.inj (ht.symm.trans ht')
      obtain rfl := Option.some.inj (hu.symm.trans hu')
      rfl
  | @next _ middle lib' op _ hstep ih =>
      obtain ⟨hscheduled, hpmiddle, hqmiddle, hbalance⟩ := ih
      obtain ⟨hperforms, hp', hq'⟩ := hstep
      obtain ⟨⟨outcome, heffect⟩, h'⟩ := hscheduled.of_performs hperforms
      refine ⟨h', hp', hq', fun t' u' ht' hu' => ?_⟩
      obtain ⟨t₁, -, ht₁⟩ := hscheduled.core.member_of_queue hpmiddle
      obtain ⟨u₁, -, hu₁⟩ := hscheduled.core.member_of_queue hqmiddle
      have hbefore := hbalance t₁ u₁ ht₁ hu₁
      have hstep := turn_step hscheduled heffect hne hpmiddle hqmiddle hp' hq' ht₁ ht' hu₁ hu'
      omega

/-- Two threads that stay in the queue have equally many quanta over any stretch of a run, up to
one. -/
theorem equal_shares (hreach : Reachable lib) (hp : lib.Member p t) (hq : lib.Member q u)
    (hne : p ≠ q) (hpqueue : p ∈ lib.readyQueue) (hqqueue : q ∈ lib.readyQueue)
    (hrun : Run (PerformsQueued p q) lib ops lib') :
    ∃ t' u', lib'.Member p t' ∧ lib'.Member q u' ∧
      t'.quantumCounter + u.quantumCounter ≤ t.quantumCounter + u'.quantumCounter + 1 ∧
      t.quantumCounter + u'.quantumCounter ≤ t'.quantumCounter + u.quantumCounter + 1 := by
  obtain ⟨h', hpqueue', hqqueue', hbalance⟩ :=
    turn_run hreach.scheduled hne hpqueue hqqueue hp.2 hq.2 hrun
  obtain ⟨t', hp'⟩ := h'.core.member_of_queue hpqueue'
  obtain ⟨u', hq'⟩ := h'.core.member_of_queue hqqueue'
  have hturns := hbalance t' u' hp'.2 hq'.2
  have hturn := turn_le_one lib p q
  have hturn' := turn_le_one lib' p q
  exact ⟨t', u', hp', hq', by omega, by omega⟩

/-- The main thread and one that it spawned, over a tick. -/
theorem equal_shares_tick : ∃ (lib lib' : ThreadLibrary) (t u t' u' : Thread),
    lib.readyQueue = [1, 2] ∧ lib'.readyQueue = [2, 1] ∧
    lib.Member 1 t ∧ lib.Member 2 u ∧ lib'.Member 1 t' ∧ lib'.Member 2 u' ∧
    t'.quantumCounter + u.quantumCounter ≤ t.quantumCounter + u'.quantumCounter + 1 ∧
    t.quantumCounter + u'.quantumCounter ≤ t'.quantumCounter + u.quantumCounter + 1 := by
  have hcomputed : (performAll [.spawn 7] .initialized).any (fun lib => lib.readyQueue == [1, 2] &&
      (Op.tick.perform lib).any fun result => result.2.readyQueue == [2, 1]) = true := by
    decide +kernel
  obtain ⟨lib, hperform, hlib⟩ := (Option.any_eq_true _ _).mp hcomputed
  obtain ⟨hqueue, hticked⟩ := Bool.and_eq_true_iff.mp hlib
  obtain ⟨⟨outcome, lib'⟩, htick, hqueue'⟩ := (Option.any_eq_true _ _).mp hticked
  rw [beq_iff_eq] at hqueue hqueue'
  have hreach := reachable_performAll hperform
  have hmember : ∀ p ∈ [1, 2], ∃ t, lib.Member p t := by
    rw [← hqueue]
    exact fun p hp => hreach.scheduled.core.member_of_queue hp
  obtain ⟨t, ht⟩ := hmember 1 (by decide)
  obtain ⟨u, hu⟩ := hmember 2 (by decide)
  have hrun : Run (PerformsQueued 1 2) lib [.tick] lib' :=
    Run.start.next ⟨⟨by decide, outcome, htick⟩, by rw [hqueue']; decide, by rw [hqueue']; decide⟩
  obtain ⟨t', u', ht', hu', hshares⟩ := equal_shares hreach ht hu (by decide)
    (by rw [hqueue]; decide) (by rw [hqueue]; decide) hrun
  exact ⟨lib, lib', t, u, t', u', hqueue, hqueue', ht, hu, ht', hu', hshares⟩

end OsExercises.Uthreads
