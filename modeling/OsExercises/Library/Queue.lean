import Mathlib.Data.List.NodupEquivFin
import Mathlib.Order.WellFounded

/-!
# Turns in a queue

A queue is a list from its front on, without repetitions. `Continues` says that what stays in a queue
keeps its order and that what joins it stands behind: then nobody who stays loses a place, and no two
of them change places.
-/

namespace OsExercises

variable {α : Type} {queue queue' base behind : List α} {stays : α → Prop} {p q : α}

def Ahead (queue : List α) (p q : α) : Prop :=
  ∃ i j : Nat, i < j ∧ queue[i]? = some p ∧ queue[j]? = some q

/-! ### Places in a part of a queue -/

theorem Ahead.mono (hsub : base.Sublist queue) (hahead : Ahead base p q) : Ahead queue p q := by
  obtain ⟨f, hf⟩ := List.sublist_iff_exists_orderEmbedding_getElem?_eq.mp hsub
  obtain ⟨i, j, hlt, hi, hj⟩ := hahead
  exact ⟨f i, f j, f.lt_iff_lt.mpr hlt, (hf i).symm.trans hi, (hf j).symm.trans hj⟩

theorem position_injective (hnodup : queue.Nodup) {i j : Nat} (hi : queue[i]? = some p)
    (hj : queue[j]? = some p) : i = j := by
  obtain ⟨hlt, -⟩ := List.getElem?_eq_some_iff.mp hi
  exact (List.getElem?_inj hlt hnodup).mp (hi.trans hj.symm)

theorem Ahead.asymm (hnodup : queue.Nodup) (hahead : Ahead queue p q) : ¬ Ahead queue q p := by
  obtain ⟨i, j, hlt, hi, hj⟩ := hahead
  rintro ⟨j', i', hlt', hj', hi'⟩
  rw [position_injective hnodup hi hi', position_injective hnodup hj hj'] at hlt
  exact Nat.lt_asymm hlt hlt'

/-- The front is ahead of everybody else. -/
theorem ahead_of_front (hfront : queue.head? = some p) (hq : q ∈ queue) (hne : q ≠ p) :
    Ahead queue p q := by
  obtain ⟨j, hj⟩ := List.mem_iff_getElem?.mp hq
  rw [List.head?_eq_getElem?] at hfront
  refine ⟨0, j, Nat.pos_of_ne_zero ?_, hfront, hj⟩
  rintro rfl
  exact hne (Option.some.inj (hj.symm.trans hfront))

theorem ahead_or_ahead (hp : p ∈ queue) (hq : q ∈ queue) (hne : p ≠ q) :
    Ahead queue p q ∨ Ahead queue q p := by
  obtain ⟨i, hi⟩ := List.mem_iff_getElem?.mp hp
  obtain ⟨j, hj⟩ := List.mem_iff_getElem?.mp hq
  have hdistinct : i ≠ j := by
    rintro rfl
    exact hne (Option.some.inj (hi.symm.trans hj))
  rcases Nat.lt_or_gt_of_ne hdistinct with hlt | hlt
  · exact Or.inl ⟨i, j, hlt, hi, hj⟩
  · exact Or.inr ⟨j, i, hlt, hj, hi⟩

/-- A part of two queues has one order in both. -/
theorem ahead_iff_of_sublist (hsub : base.Sublist queue) (hsub' : base.Sublist queue')
    (hnodup : queue.Nodup) (hnodup' : queue'.Nodup) (hp : p ∈ base) (hq : q ∈ base) :
    Ahead queue p q ↔ Ahead queue' p q := by
  by_cases heq : p = q
  · subst heq
    exact iff_of_false (fun hahead => hahead.asymm hnodup hahead)
      (fun hahead => hahead.asymm hnodup' hahead)
  · rcases ahead_or_ahead hp hq heq with hahead | hahead
    · exact iff_of_true (hahead.mono hsub) (hahead.mono hsub')
    · exact iff_of_false ((hahead.mono hsub).asymm hnodup) ((hahead.mono hsub').asymm hnodup')

theorem exists_position_le (hsub : base.Sublist queue) (hnodup : queue.Nodup) {k : Nat}
    (hk : queue[k]? = some p) (hp : p ∈ base) : ∃ i ≤ k, base[i]? = some p := by
  obtain ⟨f, hf⟩ := List.sublist_iff_exists_orderEmbedding_getElem?_eq.mp hsub
  obtain ⟨i, hi⟩ := List.mem_iff_getElem?.mp hp
  have hposition : f i = k := position_injective hnodup ((hf i).symm.trans hi) hk
  refine ⟨i, ?_, hi⟩
  calc i
    _ ≤ f i := f.strictMono.le_apply
    _ = k := hposition

/-! ### From one queue to the next -/

/-- What stays keeps its order, and what joins stands behind. -/
def Continues (queue queue' : List α) (stays : α → Prop) : Prop :=
  ∃ base behind, queue' = base ++ behind ∧ base.Sublist queue ∧
    (∀ p ∈ queue, stays p → p ∈ base) ∧ ∀ p ∈ queue, p ∉ behind

namespace Continues

theorem append (hout : ∀ p ∈ queue, p ∉ behind) : Continues queue (queue ++ behind) stays :=
  ⟨queue, behind, rfl, List.Sublist.refl queue, fun _ hp _ => hp, hout⟩

theorem refl (queue : List α) (stays : α → Prop) : Continues queue queue stays := by
  have hcontinues : Continues queue (queue ++ []) stays := append fun _ _ => List.not_mem_nil
  rwa [List.append_nil] at hcontinues

theorem erase [DecidableEq α] (hgone : ¬ stays p) : Continues queue (queue.erase p) stays := by
  refine ⟨queue.erase p, [], (List.append_nil _).symm, List.erase_sublist, ?_, ?_⟩
  · intro q hq hstays
    have hne : q ≠ p := fun heq => hgone (heq ▸ hstays)
    exact (List.mem_erase_of_ne hne).mpr hq
  · exact fun _ _ => List.not_mem_nil

theorem exists_position (h : Continues queue queue' stays) (hnodup : queue.Nodup) {k : Nat}
    (hk : queue[k]? = some p) (hstays : stays p) : ∃ i ≤ k, queue'[i]? = some p := by
  obtain ⟨base, behind, rfl, hsub, hkept, -⟩ := h
  have hp := hkept p (List.mem_of_getElem? hk) hstays
  obtain ⟨i, hle, hi⟩ := exists_position_le hsub hnodup hk hp
  obtain ⟨hlt, -⟩ := List.getElem?_eq_some_iff.mp hi
  exact ⟨i, hle, by rw [List.getElem?_append_left hlt, hi]⟩

theorem ahead_iff (h : Continues queue queue' stays) (hnodup : queue.Nodup)
    (hnodup' : queue'.Nodup) (hp : p ∈ queue) (hq : q ∈ queue) (hp' : p ∈ queue')
    (hq' : q ∈ queue') : Ahead queue p q ↔ Ahead queue' p q := by
  obtain ⟨base, behind, rfl, hsub, -, hout⟩ := h
  have hbase : ∀ r ∈ queue, r ∈ base ++ behind → r ∈ base := by
    intro r hr hafter
    rcases List.mem_append.mp hafter with hmem | hmem
    · exact hmem
    · exact absurd hmem (hout r hr)
  exact ahead_iff_of_sublist hsub (List.sublist_append_left base behind) hnodup hnodup'
    (hbase p hp hp') (hbase q hq hq')

/-- Who joins stands behind who was there. -/
theorem ahead_joined (h : Continues queue queue' stays) (hp : p ∈ queue) (hp' : p ∈ queue')
    (hq : q ∉ queue) (hq' : q ∈ queue') : Ahead queue' p q := by
  obtain ⟨base, behind, rfl, hsub, -, hout⟩ := h
  have hpbase : p ∈ base := (List.mem_append.mp hp').resolve_right (hout p hp)
  have hqbehind : q ∈ behind :=
    (List.mem_append.mp hq').resolve_left fun hbase => hq (hsub.mem hbase)
  obtain ⟨i, hi⟩ := List.mem_iff_getElem?.mp hpbase
  obtain ⟨j, hj⟩ := List.mem_iff_getElem?.mp hqbehind
  obtain ⟨hlt, -⟩ := List.getElem?_eq_some_iff.mp hi
  refine ⟨i, base.length + j, by omega, ?_, ?_⟩
  · rw [List.getElem?_append_left hlt, hi]
  · rw [List.getElem?_append_right (Nat.le_add_right _ _), Nat.add_sub_cancel_left, hj]

end Continues

end OsExercises
