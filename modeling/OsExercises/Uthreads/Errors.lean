import OsExercises.Uthreads.Quanta
import OsExercises.Uthreads.Signals
import Mathlib.Order.Bounds.Basic
import Mathlib.Data.Finset.Card
import Mathlib.Algebra.Order.BigOperators.Group.Finset

/-!
# The errors of the calls

Whether a thread exists is read from the id table, and the work is done on the list of threads. As
the two agree, the calls fail for the documented reasons only, and an id that is accepted is found.
-/

namespace OsExercises.Uthreads

open ThreadLibrary

variable {lib lib' : ThreadLibrary} {op : Op} {outcome : Outcome}

/-- The operation returns -1 after it printed a message. -/
def Fails (op : Op) (lib : ThreadLibrary) : Prop :=
  ∃ message lib', op.perform lib = some (.failed message, lib')

/-- A live thread has the id. -/
def Taken (lib : ThreadLibrary) (id : Int32) : Prop := ∃ p t, lib.Member p t ∧ t.id = id

/-! ### The id table and the list of threads -/

/-- The place of a thread in the id table. -/
def ThreadLibrary.index (lib : ThreadLibrary) (p : Address) : Nat :=
  ((lib.threads p).map fun t => asUInt64 t.id).getD 0

section Table

variable {running : Option Address} (h : Core lib running)
include h

theorem index_of_member {p : Address} {t : Thread} (hp : lib.Member p t) :
    lib.index p < maxThreadNum ∧ t.id = asInt (lib.index p) := by
  obtain ⟨i, hi, hid⟩ := h.id_range hp
  have hindex : lib.index p = i := by
    rw [ThreadLibrary.index, hp.2, Option.map_some, Option.getD_some, hid]
    exact asUInt64_asInt (hi.trans (by decide))
  exact ⟨hindex.symm ▸ hi, hindex.symm ▸ hid⟩

theorem taken_iff_mem {i : Nat} (hi : i < maxThreadNum) :
    Taken lib (asInt i) ↔ i ∈ lib.allThreads.map lib.index := by
  rw [List.mem_map]
  constructor
  · rintro ⟨p, t, hp, hid⟩
    obtain ⟨hlt, hindex⟩ := index_of_member h hp
    refine ⟨p, hp.1, ?_⟩
    rw [hindex] at hid
    exact (asInt_inj (hlt.trans (by decide)) (hi.trans (by decide))).mp hid
  · rintro ⟨p, hall, rfl⟩
    obtain ⟨t, ht⟩ := h.alive hall
    exact ⟨p, t, ⟨hall, ht⟩, (index_of_member h ⟨hall, ht⟩).2⟩

theorem indices_nodup : (lib.allThreads.map lib.index).Nodup := by
  apply h.all_nodup.map_on
  intro p hp q hq heq
  obtain ⟨t, ht⟩ := h.alive hp
  obtain ⟨u, hu⟩ := h.alive hq
  apply h.id_injective ⟨hp, ht⟩ ⟨hq, hu⟩
  rw [(index_of_member h ⟨hp, ht⟩).2, (index_of_member h ⟨hq, hu⟩).2, heq]

/-- The table is full if and only if there are `MAX_THREAD_NUM` threads. -/
theorem full_iff : (∀ i < maxThreadNum, lib.availableId[i]? = some true) ↔
    lib.allThreads.length = maxThreadNum := by
  have hsubset : (lib.allThreads.map lib.index).toFinset ⊆ Finset.range maxThreadNum := by
    intro i hi
    obtain ⟨p, hall, rfl⟩ := List.mem_map.mp (List.mem_toFinset.mp hi)
    obtain ⟨t, ht⟩ := h.alive hall
    exact Finset.mem_range.mpr (index_of_member h ⟨hall, ht⟩).1
  have hcard : (lib.allThreads.map lib.index).toFinset.card = lib.allThreads.length := by
    rw [List.toFinset_card_of_nodup (indices_nodup h), List.length_map]
  have htable : ∀ i < maxThreadNum, lib.availableId[i]? = some true ↔
      i ∈ (lib.allThreads.map lib.index).toFinset := by
    intro i hi
    rw [h.id_table hi, List.mem_toFinset]
    exact taken_iff_mem h hi
  rw [← hcard]
  constructor
  · intro hfull
    have hall : Finset.range maxThreadNum ⊆ (lib.allThreads.map lib.index).toFinset := by
      intro i hi
      have hlt := Finset.mem_range.mp hi
      exact (htable i hlt).mp (hfull i hlt)
    rw [Finset.Subset.antisymm hsubset hall, Finset.card_range]
  · intro hlength i hi
    have heq := Finset.eq_of_subset_of_card_le hsubset (by rw [hlength, Finset.card_range])
    rw [htable i hi, heq]
    exact Finset.mem_range.mpr hi

end Table

/-! ### Which operations fail -/

/-- The errors that `uthreads.h` documents. -/
def DocumentedError (lib : ThreadLibrary) : Op → Prop
  | .spawn entryPoint => entryPoint = null ∨ lib.allThreads.length = maxThreadNum
  | .terminate tid => ¬ Taken lib tid
  | .block tid => tid = 0 ∨ ¬ Taken lib tid
  | .resume tid => ¬ Taken lib tid
  | .sleep _ => ∃ t, lib.Member lib.runningThread t ∧ t.id = 0
  | .getTid => False
  | .getTotalQuantums => False
  | .getQuantums tid => ¬ Taken lib tid
  | .tick => False

section Step

variable (h : Scheduled lib)
include h

theorem taken_main : Taken lib 0 := by
  obtain ⟨p, t, hp, hid, -⟩ := h.core.main
  exact ⟨p, t, hp, hid⟩

theorem documented_of_refused {message : String} (hrefused : Refused lib op message) :
    DocumentedError lib op := by
  have hnone : ∀ {tid : Int32}, (∀ p t, lib.Member p t → t.id ≠ tid) → ¬ Taken lib tid := by
    intro tid hall htaken
    obtain ⟨p, t, hp, hid⟩ := htaken
    exact hall p t hp hid
  cases hrefused with
  | nullEntryPoint => exact Or.inl rfl
  | maxThreads _ hfull => exact Or.inr ((full_iff h.core).mp hfull)
  | terminate hall => exact hnone hall
  | blockMain => exact Or.inl rfl
  | block _ hall => exact Or.inr (hnone hall)
  | resume hall => exact hnone hall
  | sleep ht hmain => exact ⟨_, ht, hmain⟩
  | getQuantums hall => exact hnone hall

/-- An operation fails if and only if it meets a documented error, and then it does nothing. -/
theorem failed_of_effect (heffect : Effect lib op outcome lib') :
    (lib' = lib ∧ (∃ message, outcome = .failed message) ∧ DocumentedError lib op) ∨
      ((∀ message, outcome ≠ .failed message) ∧ ¬ DocumentedError lib op) := by
  cases heffect with
  | refused hrefused => exact Or.inl ⟨rfl, ⟨_, rfl⟩, documented_of_refused h hrefused⟩
  | spawned hnull hindex havailable _ =>
      refine Or.inr ⟨by simp, ?_⟩
      rintro (hzero | hlength)
      · exact hnull hzero
      · rw [(full_iff h.core).mpr hlength _ hindex] at havailable
        cases havailable
  | terminated hp _ _ _ _ => exact Or.inr ⟨by simp, fun hnot => hnot ⟨_, _, hp, rfl⟩⟩
  | terminatedSelf ht _ _ _ _ _ =>
      exact Or.inr ⟨fun _ => landing_ne _ _ rfl, fun hnot => hnot ⟨_, _, ht, rfl⟩⟩
  | blocked hp hmain _ _ =>
      exact Or.inr ⟨by simp, fun hnot => hnot.elim hmain fun hnone => hnone ⟨_, _, hp, rfl⟩⟩
  | blockedAlready hp hmain _ _ =>
      exact Or.inr ⟨by simp, fun hnot => hnot.elim hmain fun hnone => hnone ⟨_, _, hp, rfl⟩⟩
  | blockedSelf ht hmain _ _ =>
      refine Or.inr ⟨fun _ => landing_ne _ _ rfl, ?_⟩
      exact fun hnot => hnot.elim hmain fun hnone => hnone ⟨_, _, ht, rfl⟩
  | resumed hp _ => exact Or.inr ⟨by simp, fun hnot => hnot ⟨_, _, hp, rfl⟩⟩
  | resumedAlready hp _ => exact Or.inr ⟨by simp, fun hnot => hnot ⟨_, _, hp, rfl⟩⟩
  | slept ht hmain _ _ =>
      refine Or.inr ⟨fun _ => landing_ne _ _ rfl, ?_⟩
      rintro ⟨u, hu, hzero⟩
      exact hmain (hu.unique ht ▸ hzero)
  | gotTid _ => exact Or.inr ⟨by simp, id⟩
  | gotTotalQuantums => exact Or.inr ⟨by simp, id⟩
  | gotQuantums hp => exact Or.inr ⟨by simp, fun hnot => hnot ⟨_, _, hp, rfl⟩⟩
  | ticked _ _ _ => exact Or.inr ⟨fun _ => landing_ne _ _ rfl, id⟩

theorem exists_perform (op : Op) : ∃ outcome lib', op.perform lib = some (outcome, lib') := by
  by_cases hmain : op = .terminate 0
  · rw [hmain]
    exact ⟨_, _, run_terminateMain h⟩
  · obtain ⟨outcome, lib', hrun, -⟩ := perform_effect h hmain
    exact ⟨outcome, lib', hrun⟩

theorem fails_iff (op : Op) : Fails op lib ↔ DocumentedError lib op := by
  by_cases hmain : op = .terminate 0
  · subst hmain
    refine iff_of_false ?_ (not_not_intro (taken_main h))
    rintro ⟨message, lib', hrun⟩
    rw [Op.perform, run_terminateMain h] at hrun
    cases hrun
  · obtain ⟨outcome, lib', hrun, heffect⟩ := perform_effect h hmain
    rcases failed_of_effect h heffect with ⟨-, ⟨message, rfl⟩, herror⟩ | ⟨hnot, hfine⟩
    · exact iff_of_true ⟨message, lib', hrun⟩ herror
    · refine iff_of_false ?_ hfine
      rintro ⟨message, lib'', hfailed⟩
      rw [hrun] at hfailed
      cases hfailed
      exact hnot message rfl

theorem unchanged_of_failed {message : String}
    (hrun : op.perform lib = some (.failed message, lib')) : lib' = lib := by
  have hmain : op ≠ .terminate 0 := by
    rintro rfl
    rw [Op.perform, run_terminateMain h] at hrun
    cases hrun
  rcases failed_of_effect h (h.of_perform hmain hrun).1 with ⟨hsame, -⟩ | ⟨hnot, -⟩
  · exact hsame
  · exact absurd rfl (hnot message)

/-! ### What the other operations return -/

/-- A new thread gets the smallest id that no thread has. -/
theorem spawn_isLeast {entryPoint : Address} (hfine : ¬ Fails (.spawn entryPoint) lib) :
    ∃ id lib', uthreadSpawn entryPoint lib = some (.returned id, lib') ∧
      IsLeast {id | 0 ≤ id ∧ ¬ Taken lib id} id := by
  obtain ⟨outcome, lib', hrun, heffect⟩ := uthreadSpawn_effect h entryPoint
  cases heffect with
  | refused _ => exact absurd ⟨_, _, hrun⟩ hfine
  | @spawned _ index _ hindex havailable hbefore =>
      have hsmall : index < 2 ^ 31 := hindex.trans (by decide)
      refine ⟨_, _, hrun, ⟨?_, ?_⟩, ?_⟩
      · exact asInt_nonneg hsmall
      · intro htaken
        rw [(h.core.id_table hindex).mpr htaken] at havailable
        cases havailable
      · rintro id ⟨hpos, hfree⟩
        rw [Int32.le_iff_toInt_le] at hpos ⊢
        rw [toInt_asInt hsmall]
        by_contra hlt
        -- a smaller id is a place in the table before the one that was found
        obtain ⟨i, hi⟩ := Int.eq_ofNat_of_zero_le hpos
        have hlt' : i < index := by omega
        have hid : id = asInt i := by
          rw [← Int32.toInt_inj, toInt_asInt (hlt'.trans hsmall)]
          exact hi
        apply hfree
        rw [hid]
        exact (h.core.id_table (hlt'.trans hindex)).mp (hbefore i hlt')

/-- An id that is accepted is found, and the thread is there. -/
theorem found_of_exist {tid : Int32} (hexist : checkIfThreadExist (asUInt64 tid) lib = some (0, lib)) :
    ∃ p t, searchThread tid lib = some (p, lib) ∧ p ≠ null ∧ lib.Member p t ∧ t.id = tid := by
  rcases member_or_none lib tid with ⟨p, t, hp, rfl⟩ | hnone
  · exact ⟨p, t, run_searchThread h.core rfl rfl hp, member_ne_null h.core hp, hp, rfl⟩
  · rw [run_checkIfThreadExist_none h.core hnone] at hexist
    cases hexist

end Step

theorem Reachable.quantumCounter_le (hreach : Reachable lib) {p : Address} {t : Thread}
    (hp : lib.Member p t) : t.quantumCounter ≤ lib.totalQuantum := by
  obtain ⟨start, ops, hinit, hrun⟩ := hreach
  obtain ⟨ledger, hledger, rfl⟩ := exists_ledger hrun
  have h := balanced_run hinit hledger
  have hpos : p ≠ 0 := member_ne_null h.scheduled.core hp
  have hcreated : p ∈ created ledger.lib :=
    Finset.mem_Icc.mpr ⟨Nat.one_le_iff_ne_zero.mpr hpos, h.scheduled.core.allocated hp.2⟩
  calc t.quantumCounter
    _ = ledger.counters p := (h.counter hp.2).symm
    _ ≤ ∑ p ∈ created ledger.lib, ledger.counters p :=
        Finset.single_le_sum (fun _ _ => Nat.zero_le _) hcreated
    _ = ledger.lib.totalQuantum := h.total.symm

/-- What an operation returns without an error is not negative. -/
theorem Reachable.returned_nonneg (hreach : Reachable lib) (hfits : lib.totalQuantum < 2 ^ 31)
    {value : Int32} (hrun : op.perform lib = some (.returned value, lib')) : 0 ≤ value := by
  have h := hreach.scheduled
  have hmain : op ≠ .terminate 0 := by
    rintro rfl
    rw [Op.perform, run_terminateMain h] at hrun
    cases hrun
  have hid : ∀ {p t}, lib.Member p t → 0 ≤ t.id := by
    intro p t hp
    obtain ⟨hindex, heq⟩ := index_of_member h.core hp
    rw [heq]
    exact asInt_nonneg (hindex.trans (by decide))
  obtain ⟨heffect, -⟩ := h.of_perform hmain hrun
  generalize houtcome : Outcome.returned value = outcome at heffect
  cases heffect with
  | refused _ => cases houtcome
  | spawned _ hindex _ _ =>
      cases houtcome
      exact asInt_nonneg (hindex.trans (by decide))
  | terminatedSelf _ _ _ _ _ _ | blockedSelf _ _ _ _ | slept _ _ _ _ | ticked _ _ _ =>
      exact absurd houtcome.symm (landing_ne _ _ rfl)
  | gotTid ht =>
      cases houtcome
      exact hid ht
  | gotTotalQuantums =>
      cases houtcome
      exact asInt_nonneg hfits
  | gotQuantums hp =>
      cases houtcome
      exact asInt_nonneg (Nat.lt_of_le_of_lt (hreach.quantumCounter_le hp) hfits)
  | _ =>
      cases houtcome
      decide

/-- The calls fail for the documented reasons only, and then they change nothing. -/
theorem calls_fail_iff (hreach : Reachable lib) :
    (∀ op, Fails op lib ↔ DocumentedError lib op) ∧
    (∀ (op : Op) message lib', op.perform lib = some (.failed message, lib') → lib' = lib) ∧
    (∀ (op : Op) value lib', op.perform lib = some (.returned value, lib') →
      lib.totalQuantum < 2 ^ 31 → 0 ≤ value) ∧
    (∀ entryPoint, ¬ Fails (.spawn entryPoint) lib →
      ∃ id lib', uthreadSpawn entryPoint lib = some (.returned id, lib') ∧
        IsLeast {id | 0 ≤ id ∧ ¬ Taken lib id} id) ∧
    (∀ tid, checkIfThreadExist (asUInt64 tid) lib = some (0, lib) →
      ∃ p t, searchThread tid lib = some (p, lib) ∧ p ≠ null ∧ lib.Member p t ∧ t.id = tid) ∧
    ∀ op : Op, ∃ outcome lib', op.perform lib = some (outcome, lib') := by
  have h := hreach.scheduled
  refine ⟨fails_iff h, ?_, ?_, ?_, ?_, exists_perform h⟩
  · exact fun op message lib' hrun => unchanged_of_failed h hrun
  · exact fun op value lib' hrun hfits => hreach.returned_nonneg hfits hrun
  · exact fun entryPoint hfine => spawn_isLeast h hfine
  · exact fun tid hexist => found_of_exist h hexist

/-- The thread that was spawned sleeps, and the main thread runs. -/
theorem calls_fail_iff_slept : ∃ lib,
    performAll [.spawn 7, .tick, .sleep 3] .initialized = some lib ∧
      ¬ Fails (.block 1) lib ∧ Fails (.getQuantums 2) lib := by
  have hcomputed : (performAll [.spawn 7, .tick, .sleep 3] .initialized).any (fun lib =>
      lib.allThreads == [1, 2] && (lib.threads 1).map Thread.id == some 0 &&
        (lib.threads 2).map Thread.id == some 1) = true := by
    decide +kernel
  obtain ⟨lib, hperform, hlib⟩ := (Option.any_eq_true _ _).mp hcomputed
  simp only [Bool.and_eq_true, beq_iff_eq, Option.map_eq_some_iff] at hlib
  obtain ⟨⟨hall, t, ht, hmain⟩, u, hu, hid⟩ := hlib
  have hfails := (calls_fail_iff (reachable_performAll hperform)).1
  refine ⟨lib, hperform, ?_, ?_⟩
  · rw [hfails]
    rintro (hzero | hnone)
    · exact absurd hzero (by decide)
    · exact hnone ⟨2, u, ⟨by rw [hall]; decide, hu⟩, hid⟩
  · rw [hfails]
    rintro ⟨p, v, ⟨hp, hv⟩, htaken⟩
    rw [hall, List.mem_pair] at hp
    rcases hp with rfl | rfl
    · rw [Option.some.inj (ht.symm.trans hv), htaken] at hmain
      exact absurd hmain (by decide)
    · rw [Option.some.inj (hu.symm.trans hv), htaken] at hid
      exact absurd hid (by decide)

end OsExercises.Uthreads
