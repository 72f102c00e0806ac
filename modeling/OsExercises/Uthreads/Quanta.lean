import OsExercises.Uthreads.Fields
import Mathlib.Algebra.BigOperators.Group.Finset.Basic
import Mathlib.Algebra.BigOperators.Intervals
import Mathlib.Order.Interval.Finset.Nat

/-!
# Quantum accounting

A ledger is kept along a run: the last counter of every object, the quanta that were started for it,
and whether it was seen running. The counters of the code agree with the ledger, and `total_quantum`
is their sum over all objects ever created.
-/

namespace OsExercises.Uthreads

open ThreadLibrary

/-- The thread is in state RUNNING. -/
def IsRunning (lib : ThreadLibrary) (p : Address) : Prop :=
  ∃ t, lib.Member p t ∧ t.state = .running

/-- The library, and what was written down along the run. -/
structure Ledger where
  lib : ThreadLibrary
  counters : Address → Nat
  quanta : Address → Nat
  seen : Address → Prop

namespace Ledger

/-- After `uthread_init`, which starts the first quantum. -/
def opened (lib : ThreadLibrary) : Ledger where
  lib := lib
  counters p := (lib.field Thread.quantumCounter p).getD 0
  quanta p := if p = lib.runningThread then 1 else 0
  seen := IsRunning lib

/-- The counter of an object that is gone stays as it was written down last. -/
def record (ledger : Ledger) (outcome : Outcome) (lib' : ThreadLibrary) : Ledger where
  lib := lib'
  counters p := (lib'.field Thread.quantumCounter p).getD (ledger.counters p)
  quanta p := ledger.quanta p + if outcome.switches ∧ p = lib'.runningThread then 1 else 0
  seen p := ledger.seen p ∨ IsRunning lib' p

end Ledger

def Records (ledger : Ledger) (op : Op) (ledger' : Ledger) : Prop :=
  op ≠ .terminate 0 ∧ ∃ outcome lib', op.perform ledger.lib = some (outcome, lib') ∧
    ledger' = ledger.record outcome lib'

/-- The threads ever created. -/
def created (lib : ThreadLibrary) : Finset Address := Finset.Icc 1 lib.allocated

structure Balanced (ledger : Ledger) : Prop where
  scheduled : Scheduled ledger.lib
  total : ledger.lib.totalQuantum = ∑ p ∈ created ledger.lib, ledger.counters p
  counters_eq : ∀ p, ledger.counters p = ledger.quanta p
  counter : ∀ {p t}, ledger.lib.threads p = some t → ledger.counters p = t.quantumCounter
  fresh : ∀ p, ledger.lib.allocated < p → ledger.counters p = 0
  running : 0 < ledger.counters ledger.lib.runningThread
  seen_iff : ∀ p, ledger.seen p ↔ 0 < ledger.counters p

variable {lib lib' : ThreadLibrary} {ledger ledger' : Ledger} {op : Op} {outcome : Outcome}
  {p : Address} {t : Thread}

/-! ### The start of a run -/

theorem isRunning_iff (h : Scheduled lib) : IsRunning lib p ↔ p = lib.runningThread := by
  constructor
  · rintro ⟨t, hp, hstate⟩
    exact (Option.some.inj ((h.core.running_iff hp).mp hstate)).symm
  · rintro rfl
    obtain ⟨t, ht⟩ := running_member h
    exact ⟨t, ht, (h.core.running_iff ht).mpr rfl⟩

theorem counters_opened : (Ledger.opened .initialized).counters p = if p = 1 then 1 else 0 := by
  change ((Function.update (fun _ => none) 1 (some Thread.main) p).map _).getD 0 = _
  by_cases heq : p = 1
  · rw [if_pos heq, heq, Function.update_self]
    rfl
  · rw [if_neg heq, Function.update_of_ne heq]
    rfl

theorem balanced_opened : Balanced (.opened .initialized) := by
  constructor
  case scheduled => exact scheduled_initialized
  case total =>
    change 1 = ∑ p ∈ Finset.Icc 1 1, _
    rw [Finset.Icc_self, Finset.sum_singleton, counters_opened, if_pos rfl]
  case counters_eq => exact fun p => counters_opened
  case counter =>
    intro p t (ht : ThreadLibrary.initialized.threads p = some t)
    change (ThreadLibrary.field _ _ p).getD 0 = _
    rw [field, ht, Option.map_some, Option.getD_some]
  case fresh =>
    intro p (hp : 1 < p)
    rw [counters_opened, if_neg (Nat.ne_of_gt hp)]
  case running =>
    rw [counters_opened]
    exact Nat.one_pos
  case seen_iff =>
    intro p
    rw [counters_opened]
    change IsRunning .initialized p ↔ _
    rw [isRunning_iff scheduled_initialized]
    change p = 1 ↔ _
    split <;> simp [*]

/-! ### One step -/

section Step

variable (h : Balanced ledger) (heffect : Effect ledger.lib op outcome lib')
include h heffect

/-- A quantum counts for the thread that runs next, and nothing else counts. -/
theorem counters_record : (ledger.record outcome lib').counters p =
    ledger.counters p + if outcome.switches ∧ p = lib'.runningThread then 1 else 0 := by
  have hsame : (lib'.field Thread.quantumCounter p = none ∨
      lib'.field Thread.quantumCounter p = ledger.lib.field Thread.quantumCounter p) →
      (lib'.field Thread.quantumCounter p).getD (ledger.counters p) = ledger.counters p := by
    rintro (hnone | hkept)
    · rw [hnone, Option.getD_none]
    · rw [hkept, field]
      cases ht : ledger.lib.threads p with
      | none => rfl
      | some t => exact (h.counter ht).symm
  change (lib'.field Thread.quantumCounter p).getD (ledger.counters p) = _
  cases field_step steady_quantumCounter heffect with
  | quiet hswitches _ _ _ hkept =>
      rw [if_neg (by simp [hswitches]), hsame (hkept p), Nat.add_zero]
  | spawned hswitches _ _ _ hnew =>
      rw [if_neg (by simp [hswitches]), Nat.add_zero]
      by_cases heq : p = ledger.lib.allocated + 1
      · subst heq
        rw [hnew, Function.update_self, h.fresh _ (Nat.lt_succ_self _)]
        rfl
      · apply hsame
        rw [hnew, Function.update_of_ne heq]
        exact Or.inr rfl
  | switched hswitches _ _ hkept =>
      by_cases heq : p = lib'.runningThread
      · rw [if_pos ⟨hswitches, heq⟩]
        obtain ⟨t, ht⟩ := running_member (h.scheduled.of_effect heffect)
        have hcounter := hkept p
        rw [heq, Function.update_self, field, field, ht.2] at hcounter
        rw [heq, field, ht.2]
        cases hbefore : ledger.lib.threads lib'.runningThread with
        | none => simp [hbefore] at hcounter
        | some u =>
            have hone : t.quantumCounter = u.quantumCounter + 1 := by simpa [hbefore] using hcounter
            rw [h.counter hbefore, ← hone]
            rfl
      · have hkept' := hkept p
        rw [Function.update_of_ne heq] at hkept'
        rw [if_neg fun hboth => heq hboth.2, hsame hkept', Nat.add_zero]

theorem running_created : lib'.runningThread ∈ created lib' := by
  have h' := h.scheduled.of_effect heffect
  obtain ⟨t, ht⟩ := running_member h'
  have hpos : lib'.runningThread ≠ 0 := member_ne_null h'.core ht
  exact Finset.mem_Icc.mpr ⟨Nat.one_le_iff_ne_zero.mpr hpos, h'.core.allocated ht.2⟩

/-- A thread that is created has not run yet. -/
theorem sum_created :
    ∑ p ∈ created lib', ledger.counters p = ∑ p ∈ created ledger.lib, ledger.counters p := by
  cases field_step steady_quantumCounter heffect with
  | quiet _ _ _ hallocated _ => rw [created, hallocated, created]
  | spawned _ _ _ hallocated _ =>
      rw [created, hallocated, Finset.sum_Icc_succ_top (Nat.le_add_left 1 _),
        h.fresh _ (Nat.lt_succ_self _), Nat.add_zero, created]
  | switched _ _ hallocated _ => rw [created, hallocated, created]

theorem sum_record : ∑ p ∈ created lib', (ledger.record outcome lib').counters p =
    ∑ p ∈ created ledger.lib, ledger.counters p + if outcome.switches then 1 else 0 := by
  have hone : (∑ p ∈ created lib', if outcome.switches ∧ p = lib'.runningThread then 1 else 0) =
      if outcome.switches then 1 else 0 := by
    cases outcome.switches with
    | false => simp
    | true => simp [running_created h heffect]
  calc ∑ p ∈ created lib', (ledger.record outcome lib').counters p
    _ = ∑ p ∈ created lib', (ledger.counters p +
          if outcome.switches ∧ p = lib'.runningThread then 1 else 0) := by
        apply Finset.sum_congr rfl
        exact fun p _ => counters_record h heffect
    _ = ∑ p ∈ created lib', ledger.counters p +
          ∑ p ∈ created lib', (if outcome.switches ∧ p = lib'.runningThread then 1 else 0) :=
        Finset.sum_add_distrib
    _ = ∑ p ∈ created ledger.lib, ledger.counters p + if outcome.switches then 1 else 0 := by
        rw [sum_created h heffect, hone]

/-- The running thread was counted when its quantum started. -/
theorem running_record : 0 < (ledger.record outcome lib').counters lib'.runningThread := by
  have hquiet : lib'.runningThread = ledger.lib.runningThread →
      0 < (ledger.record outcome lib').counters lib'.runningThread := by
    intro hsame
    rw [counters_record h heffect, hsame]
    exact Nat.lt_of_lt_of_le h.running (Nat.le_add_right _ _)
  cases field_step steady_quantumCounter heffect with
  | quiet _ _ hsame _ _ => exact hquiet hsame
  | spawned _ _ hsame _ _ => exact hquiet hsame
  | switched hswitches _ _ _ =>
      rw [counters_record h heffect, if_pos ⟨hswitches, rfl⟩]
      exact Nat.succ_pos _

theorem Balanced.record : Balanced (ledger.record outcome lib') := by
  have h' := h.scheduled.of_effect heffect
  have hcounters := fun p => counters_record h heffect (p := p)
  constructor
  case scheduled => exact h'
  case total =>
    calc lib'.totalQuantum
      _ = ledger.lib.totalQuantum + (if outcome.switches then 1 else 0) := switches_total heffect
      _ = _ := by rw [h.total, ← sum_record h heffect]; rfl
  case counters_eq =>
    intro p
    rw [hcounters, h.counters_eq]
    rfl
  case counter =>
    intro p t (ht : lib'.threads p = some t)
    change (ThreadLibrary.field _ _ p).getD _ = _
    rw [field, ht, Option.map_some, Option.getD_some]
  case fresh =>
    intro p (hp : lib'.allocated < p)
    have hbefore : ledger.lib.allocated < p := by
      cases field_step steady_quantumCounter heffect with
      | quiet _ _ _ hallocated _ => rwa [hallocated] at hp
      | spawned _ _ _ hallocated _ =>
          rw [hallocated] at hp
          exact Nat.lt_of_succ_lt hp
      | switched _ _ hallocated _ => rwa [hallocated] at hp
    have hne : p ≠ lib'.runningThread := by
      rintro rfl
      exact Nat.not_lt_of_le (Finset.mem_Icc.mp (running_created h heffect)).2 hp
    rw [hcounters, if_neg fun hboth => hne hboth.2, h.fresh p hbefore]
  case running => exact running_record h heffect
  case seen_iff =>
    intro p
    change ledger.seen p ∨ IsRunning lib' p ↔ _
    rw [isRunning_iff h', h.seen_iff p]
    by_cases heq : p = lib'.runningThread
    · rw [heq]
      exact iff_of_true (Or.inr rfl) (running_record h heffect)
    · rw [hcounters, if_neg fun hboth => heq hboth.2, Nat.add_zero]
      exact or_iff_left heq

end Step

/-! ### Runs -/

theorem balanced_run {start : ThreadLibrary} {ops : List Op} (hinit : Initialized start)
    (hrun : Run Records (.opened start) ops ledger) : Balanced ledger := by
  rw [initialized_iff.mp hinit] at hrun
  apply hrun.invariant balanced_opened
  intro ledger op ledger' h hstep
  obtain ⟨hmain, outcome, lib', hperform, rfl⟩ := hstep
  exact h.record (h.scheduled.of_perform hmain hperform).1

/-- Every run of the library has its ledger. -/
theorem exists_ledger {start : ThreadLibrary} {ops : List Op}
    (hrun : Run Performs start ops lib) :
    ∃ ledger, Run Records (.opened start) ops ledger ∧ ledger.lib = lib := by
  induction hrun with
  | start => exact ⟨_, .start, rfl⟩
  | next _ hlast ih =>
      obtain ⟨ledger, hrun, rfl⟩ := ih
      obtain ⟨hmain, outcome, hperform⟩ := hlast
      exact ⟨_, hrun.next ⟨hmain, outcome, _, hperform, rfl⟩, rfl⟩

/-- The counter that a call gives back is the one of the thread. -/
theorem run_getQuantums (h : Scheduled lib) (hp : lib.Member p t) :
    uthreadGetQuantums t.id lib = some (.returned (asInt t.quantumCounter), lib) := by
  have hmain : Op.getQuantums t.id ≠ .terminate 0 := by simp
  obtain ⟨outcome, lib', hrun, heffect⟩ := perform_effect h hmain
  generalize hid : t.id = id at hrun heffect
  cases heffect with
  | refused hrefused =>
      cases hrefused with
      | getQuantums hnone => exact absurd hid (hnone _ _ hp)
  | gotQuantums hq =>
      obtain rfl := h.core.id_injective hp hq hid
      rw [hp.unique hq]
      exact hrun

/-- The quanta of the library and of its threads. -/
theorem quantum_accounting {start : ThreadLibrary} {ops : List Op} (hinit : Initialized start)
    (hrun : Run Records (.opened start) ops ledger) :
    ledger.lib.totalQuantum = ∑ p ∈ created ledger.lib, ledger.counters p ∧
    (∀ p t, ledger.lib.threads p = some t → ledger.counters p = t.quantumCounter) ∧
    (∀ (op : Op) outcome lib', op ≠ .terminate 0 → op.perform ledger.lib = some (outcome, lib') →
      (outcome.switches = true → lib'.totalQuantum = ledger.lib.totalQuantum + 1 ∧
        IsRunning lib' lib'.runningThread ∧
        ∀ p, (ledger.record outcome lib').counters p =
          if p = lib'.runningThread then ledger.counters p + 1 else ledger.counters p) ∧
      (outcome.switches = false → lib'.totalQuantum = ledger.lib.totalQuantum ∧
        (ledger.record outcome lib').counters = ledger.counters)) ∧
    ∀ p t, ledger.lib.Member p t → (0 < t.quantumCounter ↔ ledger.seen p) ∧
      uthreadGetQuantums t.id ledger.lib = some (.returned (asInt (ledger.quanta p)), ledger.lib) ∧
      (ledger.quanta p = 1 → uthreadGetQuantums t.id ledger.lib = some (.returned 1, ledger.lib)) := by
  have h := balanced_run hinit hrun
  refine ⟨h.total, fun p t => h.counter, ?_, ?_⟩
  · intro op outcome lib' hmain hperform
    obtain ⟨heffect, h'⟩ := h.scheduled.of_perform hmain hperform
    have htotal := switches_total heffect
    constructor
    · intro hswitches
      rw [if_pos hswitches] at htotal
      refine ⟨htotal, (isRunning_iff h').mpr rfl, fun p => ?_⟩
      rw [counters_record h heffect]
      by_cases heq : p = lib'.runningThread <;> simp [hswitches, heq]
    · intro hswitches
      rw [hswitches] at htotal
      refine ⟨htotal, funext fun p => ?_⟩
      rw [counters_record h heffect, if_neg (by simp [hswitches]), Nat.add_zero]
  · intro p t hp
    have hcounter := h.counter hp.2
    have hcall : uthreadGetQuantums t.id ledger.lib =
        some (.returned (asInt (ledger.quanta p)), ledger.lib) := by
      rw [← h.counters_eq, hcounter]
      exact run_getQuantums h.scheduled hp
    refine ⟨?_, hcall, fun hfirst => ?_⟩
    · rw [h.seen_iff, hcounter]
    · rw [hcall, hfirst]
      rfl

/-- The second thread with id 1 has its first quantum. -/
def reuseRun : List Op := [.spawn 7, .tick, .terminate 1, .spawn 7, .tick]

theorem quantum_accounting_reuse : ∃ ledger, Run Records (.opened .initialized) reuseRun ledger ∧
    ledger.lib.totalQuantum = ∑ p ∈ created ledger.lib, ledger.counters p := by
  have hsome : (performAll reuseRun .initialized).isSome = true := by decide +kernel
  obtain ⟨lib, hperform⟩ := Option.isSome_iff_exists.mp hsome
  obtain ⟨ledger, hrun, -⟩ := exists_ledger (run_performAll .start hperform)
  exact ⟨ledger, hrun, (quantum_accounting (initialized_iff.mpr rfl) hrun).1⟩

end OsExercises.Uthreads
