import OsExercises.MapReduce.JobWord
import OsExercises.Library.Parties
import Mathlib.Algebra.BigOperators.Group.Multiset.Basic
import Mathlib.Algebra.Order.BigOperators.Group.Multiset
import Mathlib.Data.Multiset.Range

/-!
# Claiming work by index

The loop that `map_phase` and `reduce_phase` share. A worker loads the packed word and goes on while
the word it has seen is unfinished: it claims the next index with `fetch_add`, leaves the loop when
there is no element with that index, runs the client on the element, and adds the weight of the
element to the word. The word a worker looks at may be out of date.

An index is claimed once, by one worker; and a worker leaves the loop only when all indices are
claimed or all elements are counted.
-/

namespace OsExercises.MapReduce

open Function (update)

inductive LoopPoint where
  | load
  | next
  | call (index : Nat)
  | count (index : Nat)
  | out
deriving DecidableEq

namespace LoopPoint

/-- Behind the guard of the loop. -/
def guarded (x : Nat) : LoopPoint := if unfinished x then .next else .out

/-- Behind the test of the claimed index. -/
def claimed (size oldVal : Nat) : LoopPoint := if oldVal ≥ size then .out else .call oldVal

/-- The index that is claimed and not yet given to the client. -/
def inHand : LoopPoint → Multiset Nat
  | .call index => {index}
  | _ => 0

/-- The weight that is not yet added to the word. -/
def uncounted (weight : Nat → Nat) : LoopPoint → Nat
  | .count index => weight index
  | _ => 0

end LoopPoint

/-- The loop of `n` workers, with the list of the indices given to the client. -/
structure WorkLoop (n : Nat) where
  atomicState : Nat
  atomicNextToProcess : Int32
  points : Fin n → LoopPoint
  calls : List Nat

namespace WorkLoop

variable {n : Nat}

def setPoint (l : WorkLoop n) (i : Fin n) (point : LoopPoint) : WorkLoop n :=
  { l with points := update l.points i point }

inductive Step (size : Nat) (weight : Nat → Nat) (i : Fin n) : WorkLoop n → WorkLoop n → Prop where
  | load {l : WorkLoop n} :
      l.points i = .load → Step size weight i l (l.setPoint i (.guarded l.atomicState))
  | next {l : WorkLoop n} :
      l.points i = .next →
      Step size weight i l
        { l.setPoint i (.claimed size (asUInt64 l.atomicNextToProcess)) with
          atomicNextToProcess := l.atomicNextToProcess + 1 }
  | call {l : WorkLoop n} {index : Nat} :
      l.points i = .call index →
      Step size weight i l { l.setPoint i (.count index) with calls := l.calls ++ [index] }
  | count {l : WorkLoop n} {index : Nat} :
      l.points i = .count index →
      Step size weight i l
        { l.setPoint i (.guarded l.atomicState) with
          atomicState := fetchAdd l.atomicState (weight index) }

/-- The sum of the weights of the first indices. -/
def weightOf (weight : Nat → Nat) (size : Nat) : Nat := ((Multiset.range size).map weight).sum

/-- `claimed` indices were claimed, and elements of weight `done` are counted. -/
structure Claims (stage : Stage) (size : Nat) (weight : Nat → Nat) (l : WorkLoop n)
    (claimed done : Nat) : Prop where
  word : l.atomicState = jobWord stage (weightOf weight size) done
  next : l.atomicNextToProcess = asInt claimed
  claimed_le : claimed ≤ size + countParties (· = .out) l.points
  calls : (l.calls : Multiset Nat) + total LoopPoint.inHand l.points =
    Multiset.range (min claimed size)
  counted :
    done + total (LoopPoint.uncounted weight) l.points = ((l.calls : Multiset Nat).map weight).sum
  counting : ∀ i index, l.points i = .count index → index ∈ l.calls
  out : ∀ i, l.points i = .out → size ≤ claimed ∨ done = weightOf weight size

/-- What the loop relies on: the sizes fit their fields of the word. -/
structure Fits (n size : Nat) (weight : Nat → Nat) : Prop where
  workers_lt : n < 2 ^ 31
  size_lt : size < 2 ^ 31
  weight_lt : weightOf weight size < 2 ^ 31

section Weights

variable {size : Nat}

theorem weightOf_le (weight : Nat → Nat) {s : Multiset Nat} (hle : s ≤ Multiset.range size) :
    (s.map weight).sum ≤ weightOf weight size := by
  obtain ⟨rest, hrest⟩ := Multiset.le_iff_exists_add.mp hle
  rw [weightOf, hrest, Multiset.map_add, Multiset.sum_add]
  exact Nat.le_add_right _ _

theorem weightOf_mono (weight : Nat → Nat) {size' : Nat} (hle : size' ≤ size) :
    weightOf weight size' ≤ weightOf weight size :=
  weightOf_le weight (Multiset.range_le.mpr hle)

theorem weightOf_succ (weight : Nat → Nat) (size : Nat) :
    weightOf weight (size + 1) = weight size + weightOf weight size := by
  rw [weightOf, Multiset.range_succ, Multiset.map_cons, Multiset.sum_cons, weightOf]

end Weights

/-! ### One step -/

/-- An index behind the last element is seen as such, also when the counter has wrapped around. -/
theorem le_asUInt64_asInt {size claimed : Nat} (hle : size ≤ claimed)
    (hclaimed : claimed < 2 ^ 32) : size ≤ asUInt64 (asInt claimed) := by
  by_cases hsmall : claimed < 2 ^ 31
  · rwa [asUInt64_asInt hsmall]
  · have hnegative : (asInt claimed).toInt = claimed - 2 ^ 32 := by
      rw [asInt, Int32.toInt_ofNat', Int.bmod, show (Int32.size : Int) = 2 ^ 32 from rfl]
      omega
    rw [asUInt64, hnegative]
    omega

namespace Claims

variable {stage : Stage} {size : Nat} {weight : Nat → Nat} {l l' : WorkLoop n} {claimed done : Nat}
  {i : Fin n}

theorem done_le (h : Claims stage size weight l claimed done) :
    done ≤ weightOf weight (min claimed size) := by
  have hcalls : (l.calls : Multiset Nat) ≤ Multiset.range (min claimed size) := by
    rw [← h.calls]
    exact Multiset.le_add_right _ _
  have hle := weightOf_le weight hcalls
  have hdone := h.counted
  omega

theorem done_le_weightOf (h : Claims stage size weight l claimed done) :
    done ≤ weightOf weight size :=
  h.done_le.trans (weightOf_mono weight (min_le_right claimed size))

/-- The word is finished only if all elements are counted. -/
theorem done_eq_of_finished (h : Claims stage size weight l claimed done)
    (hfits : Fits n size weight) (hfinished : unfinished l.atomicState = false) :
    done = weightOf weight size := by
  have hle := h.done_le_weightOf
  have hsize := hfits.weight_lt
  have hiff : unfinished l.atomicState = true ↔ done < weightOf weight size := by
    rw [h.word, unfinished_jobWord hsize (by omega)]
  rw [hfinished] at hiff
  simp only [Bool.false_eq_true, false_iff] at hiff
  omega

/-- One worker in the loop moves. What it had in hand, and what it has, balance what is claimed, given
to the client and counted. -/
theorem move (h : Claims stage size weight l claimed done) (hin : l.points i ≠ .out)
    {point : LoopPoint} {claimed' done' : Nat} (hpoints : l'.points = update l.points i point)
    (hword : l'.atomicState = jobWord stage (weightOf weight size) done')
    (hnext : l'.atomicNextToProcess = asInt claimed')
    (hclaimed : claimed' ≤ size ∨ claimed' ≤ claimed ∨ (point = .out ∧ claimed' ≤ claimed + 1))
    (hle : claimed ≤ claimed') (hkeep : done = weightOf weight size → done' = weightOf weight size)
    (hout : point = .out → size ≤ claimed' ∨ done' = weightOf weight size)
    (hcounting : ∀ index, (index ∈ l.calls ∨ point = .count index) → index ∈ l'.calls)
    (hcalls : (l'.calls : Multiset Nat) + point.inHand + Multiset.range (min claimed size) =
      l.calls + (l.points i).inHand + Multiset.range (min claimed' size))
    (hdone : done' + point.uncounted weight + ((l.calls : Multiset Nat).map weight).sum =
      done + (l.points i).uncounted weight + ((l'.calls : Multiset Nat).map weight).sum) :
    Claims stage size weight l' claimed' done' := by
  constructor
  · exact hword
  · exact hnext
  · have hcount := countParties_update (· = LoopPoint.out) l.points i point
    have hbound := h.claimed_le
    rw [if_neg hin] at hcount
    rw [hpoints]
    rcases hclaimed with hsize | hsame | ⟨hpoint, hnext⟩
    · omega
    · omega
    · rw [if_pos hpoint] at hcount
      omega
  · have hhand := total_update LoopPoint.inHand l.points i point
    rw [hpoints]
    apply add_right_cancel (b := (l.points i).inHand + Multiset.range (min claimed size))
    calc (l'.calls : Multiset Nat) + total LoopPoint.inHand (update l.points i point) +
          ((l.points i).inHand + Multiset.range (min claimed size))
      _ = l'.calls + Multiset.range (min claimed size) +
          (total LoopPoint.inHand (update l.points i point) + (l.points i).inHand) := by abel
      _ = l'.calls + point.inHand + Multiset.range (min claimed size) +
          total LoopPoint.inHand l.points := by rw [hhand]; abel
      _ = l.calls + total LoopPoint.inHand l.points + (l.points i).inHand +
          Multiset.range (min claimed' size) := by rw [hcalls]; abel
      _ = Multiset.range (min claimed' size) +
          ((l.points i).inHand + Multiset.range (min claimed size)) := by rw [h.calls]; abel
  · have hcounted := total_update (LoopPoint.uncounted weight) l.points i point
    have hbefore := h.counted
    rw [hpoints]
    omega
  · intro j index hj
    rw [hpoints] at hj
    by_cases heq : j = i
    · rw [heq, Function.update_self] at hj
      exact hcounting index (Or.inr hj)
    · rw [Function.update_of_ne heq] at hj
      exact hcounting index (Or.inl (h.counting j index hj))
  · intro j hj
    rw [hpoints] at hj
    by_cases heq : j = i
    · rw [heq, Function.update_self] at hj
      exact hout hj
    · rw [Function.update_of_ne heq] at hj
      exact (h.out j hj).imp hle.trans' hkeep

theorem claimed_lt (h : Claims stage size weight l claimed done) (hfits : Fits n size weight) :
    claimed < 2 ^ 32 := by
  have hbound := h.claimed_le
  have hcount := countParties_le (· = LoopPoint.out) l.points
  have hsize := hfits.size_lt
  have hworkers := hfits.workers_lt
  rw [Fintype.card_fin] at hcount
  omega

/-- An element that was given to the client is an element, and is counted at most once. -/
theorem count_le (h : Claims stage size weight l claimed done) {index : Nat}
    (hi : l.points i = .count index) : done + weight index ≤ weightOf weight size := by
  have hle : LoopPoint.uncounted weight (l.points i) ≤ total (LoopPoint.uncounted weight) l.points :=
    le_total _ _ i
  have hcalls : (l.calls : Multiset Nat) ≤ Multiset.range (min claimed size) := by
    rw [← h.calls]
    exact Multiset.le_add_right _ _
  have hsum := weightOf_le weight (hcalls.trans (Multiset.range_le.mpr (min_le_right claimed size)))
  have hdone := h.counted
  rw [hi] at hle
  change weight index ≤ _ at hle
  omega

/-- The guard lets a worker out only if all elements are counted. -/
theorem guarded_out (h : Claims stage size weight l claimed done) (hfits : Fits n size weight)
    (hout : LoopPoint.guarded l.atomicState = .out) : done = weightOf weight size := by
  apply h.done_eq_of_finished hfits
  unfold LoopPoint.guarded at hout
  split at hout
  · cases hout
  · rename_i hfinished
    exact Bool.not_eq_true _ ▸ hfinished

theorem guarded_ne_count (x index : Nat) : LoopPoint.guarded x ≠ .count index := by
  unfold LoopPoint.guarded
  split <;> simp

theorem guarded_inHand (x : Nat) : (LoopPoint.guarded x).inHand = 0 := by
  unfold LoopPoint.guarded
  split <;> rfl

theorem guarded_uncounted (x : Nat) : (LoopPoint.guarded x).uncounted weight = 0 := by
  unfold LoopPoint.guarded
  split <;> rfl

/-- One step. -/
theorem step (h : Claims stage size weight l claimed done) (hfits : Fits n size weight)
    (hstep : Step size weight i l l') :
    ∃ claimed' done', Claims stage size weight l' claimed' done' ∧ done ≤ done' := by
  cases hstep with
  | load hi =>
      refine ⟨claimed, done, h.move (i := i) ?_ rfl h.word h.next (Or.inr (Or.inl le_rfl)) le_rfl id
        (fun hout => Or.inr (h.guarded_out hfits hout)) ?_ ?_ ?_, le_rfl⟩
      · rw [hi]; simp
      · exact fun index hindex => hindex.resolve_right (guarded_ne_count _ index)
      · rw [hi, guarded_inHand]
        rfl
      · rw [hi, guarded_uncounted]
        rfl
  | next hi =>
      have hclaimed := h.claimed_lt hfits
      have hnext : l.atomicNextToProcess + 1 = asInt (claimed + 1) := by
        rw [h.next, asInt, asInt, Int32.ofNat_add]
        rfl
      by_cases hlt : claimed < size
      · have hindex : asUInt64 l.atomicNextToProcess = claimed := by
          rw [h.next, asUInt64_asInt (hlt.trans hfits.size_lt)]
        have hpoint : LoopPoint.claimed size (asUInt64 l.atomicNextToProcess) = .call claimed := by
          rw [hindex, LoopPoint.claimed, if_neg (by omega)]
        rw [hpoint]
        refine ⟨claimed + 1, done, h.move (i := i) ?_ rfl h.word hnext (Or.inl hlt)
          (Nat.le_succ _) id (by simp) (by simp [setPoint]) ?_ ?_, le_rfl⟩
        · rw [hi]; simp
        · rw [hi, min_eq_left hlt.le, min_eq_left (Nat.succ_le_of_lt hlt), Multiset.range_succ,
            ← Multiset.singleton_add]
          change (l.calls : Multiset Nat) + {claimed} + _ = l.calls + 0 + _
          abel
        · rw [hi]
          rfl
      · have hindex : size ≤ asUInt64 l.atomicNextToProcess := by
          rw [h.next]
          exact le_asUInt64_asInt (by omega) hclaimed
        have hpoint : LoopPoint.claimed size (asUInt64 l.atomicNextToProcess) = .out :=
          if_pos hindex
        rw [hpoint]
        refine ⟨claimed + 1, done, h.move (i := i) ?_ rfl h.word hnext
          (Or.inr (Or.inr ⟨rfl, le_rfl⟩)) (Nat.le_succ _) id (fun _ => Or.inl (by omega))
          (by simp [setPoint]) ?_ ?_, le_rfl⟩
        · rw [hi]; simp
        · rw [hi, min_eq_right (by omega), min_eq_right (by omega)]
          rfl
        · rw [hi]
          rfl
  | @call index hi =>
      refine ⟨claimed, done, h.move (i := i) ?_ rfl h.word h.next (Or.inr (Or.inl le_rfl)) le_rfl id
        (by simp) (by simp [eq_comm]) ?_ ?_, le_rfl⟩
      · rw [hi]; simp
      · rw [hi, ← Multiset.coe_add, Multiset.coe_singleton]
        change (l.calls : Multiset Nat) + {index} + 0 + _ = l.calls + {index} + _
        abel
      · rw [hi, ← Multiset.coe_add, Multiset.map_add, Multiset.sum_add, Multiset.coe_singleton,
          Multiset.map_singleton, Multiset.sum_singleton]
        change done + weight index + _ = done + 0 + _
        omega
  | @count index hi =>
      have hafter := h.count_le hi
      have hlt := hfits.weight_lt
      refine ⟨claimed, done + weight index, h.move (i := i) ?_ rfl ?_ h.next (Or.inr (Or.inl le_rfl))
        le_rfl (by omega) ?_ ?_ ?_ ?_, Nat.le_add_right _ _⟩
      · rw [hi]; simp
      · change fetchAdd l.atomicState (weight index) = _
        rw [h.word, fetchAdd_jobWord hlt (by omega)]
      · intro hout
        have hdone := h.guarded_out hfits hout
        exact Or.inr (by omega)
      · exact fun index hindex => hindex.resolve_right (guarded_ne_count _ index)
      · rw [hi, guarded_inHand]
        rfl
      · rw [hi, guarded_uncounted]
        change done + weight index + 0 + ((l.calls : Multiset Nat).map weight).sum =
          done + weight index + ((l.calls : Multiset Nat).map weight).sum
        omega

/-! ### The loop as a whole -/

theorem start (hword : l.atomicState = jobWord stage (weightOf weight size) 0)
    (hnext : l.atomicNextToProcess = 0) (hpoints : ∀ i, l.points i = .load) (hcalls : l.calls = []) :
    Claims stage size weight l 0 0 := by
  have hhand : total LoopPoint.inHand l.points = 0 := total_eq_zero fun i => by rw [hpoints i]; rfl
  have huncounted : total (LoopPoint.uncounted weight) l.points = 0 :=
    total_eq_zero fun i => by rw [hpoints i]; rfl
  constructor
  · exact hword
  · exact hnext
  · exact Nat.zero_le _
  · rw [hcalls, hhand, Nat.zero_min]
    rfl
  · rw [hcalls, huncounted]
    rfl
  · intro i index hi
    rw [hpoints i] at hi
    cases hi
  · intro i hi
    rw [hpoints i] at hi
    cases hi

theorem calls_of_out (h : Claims stage size weight l claimed done) (hout : ∀ i, l.points i = .out) :
    (l.calls : Multiset Nat) = Multiset.range (min claimed size) := by
  have hhand : total LoopPoint.inHand l.points = 0 := total_eq_zero fun i => by rw [hout i]; rfl
  have hcalls := h.calls
  rwa [hhand, add_zero] at hcalls

/-- When all workers have left, all elements are counted. -/
theorem complete (h : Claims stage size weight l claimed done) (hn : 1 ≤ n)
    (hout : ∀ i, l.points i = .out) : done = weightOf weight size := by
  have huncounted : total (LoopPoint.uncounted weight) l.points = 0 :=
    total_eq_zero fun i => by rw [hout i]; rfl
  have hdone := h.counted
  rw [huncounted, Nat.add_zero, h.calls_of_out hout] at hdone
  rcases h.out ⟨0, hn⟩ (hout _) with hsize | hall
  · rwa [min_eq_right hsize] at hdone
  · exact hall

/-- Then every element was given to the client once, if no element weighs nothing. -/
theorem complete_calls (h : Claims stage size weight l claimed done) (hn : 1 ≤ n)
    (hout : ∀ i, l.points i = .out) (hpos : ∀ index < size, 0 < weight index) :
    (l.calls : Multiset Nat) = Multiset.range size := by
  have hsize : size ≤ claimed := by
    by_contra hlt
    have hle := h.done_le
    have hdone := h.complete hn hout
    have hnext := weightOf_mono weight (show claimed + 1 ≤ size by omega)
    have hweight := hpos claimed (by omega)
    rw [min_eq_left (by omega)] at hle
    rw [weightOf_succ] at hnext
    omega
  rw [h.calls_of_out hout, min_eq_right hsize]

end Claims

end WorkLoop

end OsExercises.MapReduce
