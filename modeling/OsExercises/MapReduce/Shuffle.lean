import OsExercises.Library.Runs
import OsExercises.Library.WeakOrder
import Mathlib.Data.List.Induction
import Mathlib.Data.List.TakeWhile
import Mathlib.Data.Multiset.Basic
import Mathlib.Algebra.BigOperators.Group.List.Basic
import Mathlib.Algebra.Ring.Nat

/-!
# The shuffle

`max_key` and `shuffle_phase` of `MapReduceFramework.cpp`. The shuffle takes the pairs with the largest
key off the backs of the sorted vectors, one pair at a time, and puts them into a vector of their own;
then it goes on with the largest key that is left. Every pair adds one to `atomic_state`, so a step of
the shuffle comes with the amount it adds.
-/

namespace OsExercises.MapReduce

section Definitions

variable {K V : Type} (less : K → K → Bool)

abbrev IntermediateVec (K V : Type) := List (K × V)

/-- The second loop of `max_key`. -/
def laterKey (key : K) (vec : IntermediateVec K V) : K :=
  match vec.getLast? with
  | none => key
  | some back => if less key back.1 then back.1 else key

def maxKey (beforeShuffle : List (IntermediateVec K V)) : Option K :=
  match beforeShuffle.findSome? List.getLast? with
  | none => none
  | some back => some (beforeShuffle.foldl (laterKey less) back.1)

/-- The condition under which a pair goes into the vector of the largest key. -/
def sameKey (curr maxKey : K) : Bool := !(less curr maxKey || less maxKey curr)

/-- In front of `max_key`; at a vector of the loop over `beforeShuffle`; behind the function. -/
inductive ShufflePoint (K V : Type) where
  | key
  | scan (maxKey : K) (temp : IntermediateVec K V) (index : Nat)
  | out

structure Shuffle (K V : Type) where
  beforeShuffle : List (IntermediateVec K V)
  afterShuffle : List (IntermediateVec K V)
  point : ShufflePoint K V

namespace Shuffle

/-- One step, and what it adds to `atomic_state`. -/
def next (s : Shuffle K V) : Option (Nat × Shuffle K V) :=
  match s.point with
  | .key =>
      match maxKey less s.beforeShuffle with
      | none => some (0, { s with point := .out })
      | some maxKey => some (0, { s with point := .scan maxKey [] 0 })
  | .scan maxKey temp index =>
      match s.beforeShuffle[index]? with
      | none => some (0, { s with afterShuffle := s.afterShuffle ++ [temp], point := .key })
      | some vec =>
          match vec.getLast? with
          | none => some (0, { s with point := .scan maxKey temp (index + 1) })
          | some curr =>
              if sameKey less curr.1 maxKey then
                some (1,
                  { s with
                    beforeShuffle := s.beforeShuffle.set index vec.dropLast
                    point := .scan maxKey (temp ++ [curr]) index })
              else
                some (0, { s with point := .scan maxKey temp (index + 1) })
  | .out => none

def Step (s : Shuffle K V) (amount : Nat) (s' : Shuffle K V) : Prop := s.next less = some (amount, s')

end Shuffle

/-- The pairs that a round takes off a vector, in the order in which it takes them. -/
def takeGroup (maxKey : K) (vec : IntermediateVec K V) : IntermediateVec K V :=
  vec.reverse.takeWhile fun p => sameKey less p.1 maxKey

def dropGroup (maxKey : K) (vec : IntermediateVec K V) : IntermediateVec K V :=
  (vec.reverse.dropWhile fun p => sameKey less p.1 maxKey).reverse

end Definitions

/-! ### One step -/

section Step

variable {K V : Type} {less : K → K → Bool}

namespace Shuffle

/-- What a step can do. -/
inductive Move (less : K → K → Bool) : Shuffle K V → Nat → Shuffle K V → Prop where
  | finish {before after : List (IntermediateVec K V)} :
      maxKey less before = none → Move less ⟨before, after, .key⟩ 0 ⟨before, after, .out⟩
  | start {before after : List (IntermediateVec K V)} {key : K} :
      maxKey less before = some key → Move less ⟨before, after, .key⟩ 0 ⟨before, after, .scan key [] 0⟩
  | push {before after : List (IntermediateVec K V)} {key : K} {temp : IntermediateVec K V}
      {index : Nat} :
      before[index]? = none →
      Move less ⟨before, after, .scan key temp index⟩ 0 ⟨before, after ++ [temp], .key⟩
  | skip {before after : List (IntermediateVec K V)} {key : K} {temp vec : IntermediateVec K V}
      {index : Nat} :
      before[index]? = some vec → (∀ curr, vec.getLast? = some curr → sameKey less curr.1 key = false) →
      Move less ⟨before, after, .scan key temp index⟩ 0 ⟨before, after, .scan key temp (index + 1)⟩
  | take {before after : List (IntermediateVec K V)} {key : K} {temp vec : IntermediateVec K V}
      {curr : K × V} {index : Nat} :
      before[index]? = some (vec ++ [curr]) → sameKey less curr.1 key = true →
      Move less ⟨before, after, .scan key temp index⟩ 1
        ⟨before.set index vec, after, .scan key (temp ++ [curr]) index⟩

theorem move_of_step {s s' : Shuffle K V} {amount : Nat} (hstep : Step less s amount s') :
    Move less s amount s' := by
  obtain ⟨before, after, point⟩ := s
  cases point with
  | key =>
      cases hkey : maxKey less before with
      | none =>
          simp only [Step, next, hkey, Option.some.injEq, Prod.mk.injEq] at hstep
          obtain ⟨rfl, rfl⟩ := hstep
          exact .finish hkey
      | some key =>
          simp only [Step, next, hkey, Option.some.injEq, Prod.mk.injEq] at hstep
          obtain ⟨rfl, rfl⟩ := hstep
          exact .start hkey
  | scan key temp index =>
      cases hvec : before[index]? with
      | none =>
          simp only [Step, next, hvec, Option.some.injEq, Prod.mk.injEq] at hstep
          obtain ⟨rfl, rfl⟩ := hstep
          exact .push hvec
      | some vec =>
          cases hlast : vec.getLast? with
          | none =>
              simp only [Step, next, hvec, hlast, Option.some.injEq, Prod.mk.injEq] at hstep
              obtain ⟨rfl, rfl⟩ := hstep
              exact .skip hvec (by simp [hlast])
          | some curr =>
              simp only [Step, next, hvec, hlast] at hstep
              split at hstep
              · rename_i hsame
                simp only [Option.some.injEq, Prod.mk.injEq] at hstep
                obtain ⟨rfl, rfl⟩ := hstep
                obtain ⟨init, rfl⟩ := List.getLast?_eq_some_iff.mp hlast
                rw [List.dropLast_concat]
                exact .take hvec hsame
              · rename_i hother
                simp only [Option.some.injEq, Prod.mk.injEq] at hstep
                obtain ⟨rfl, rfl⟩ := hstep
                apply Move.skip hvec
                intro back hback
                rw [hlast] at hback
                rw [← Option.some.inj hback]
                simpa using hother
  | out => cases hstep

theorem step_deterministic (s : Shuffle K V) (amount₁ : Nat) (s₁ : Shuffle K V)
    (amount₂ : Nat) (s₂ : Shuffle K V) (h₁ : Step less s amount₁ s₁) (h₂ : Step less s amount₂ s₂) :
    amount₁ = amount₂ ∧ s₁ = s₂ := by
  rw [Step, h₁] at h₂
  exact Prod.mk.inj (Option.some.inj h₂)

theorem step_out {s s' : Shuffle K V} {amount : Nat} (hout : s.point = .out) :
    ¬ Step less s amount s' := by
  obtain ⟨before, after, point⟩ := s
  subst hout
  nofun

end Shuffle

/-- The pairs taken off the vectors in this round. -/
def ShufflePoint.temp : ShufflePoint K V → IntermediateVec K V
  | .scan _ temp _ => temp
  | _ => []

namespace Shuffle

variable {s s' : Shuffle K V} {amount : Nat}

theorem flatten_set_perm {vecs : List (IntermediateVec K V)} {index : Nat}
    {vec : IntermediateVec K V} {curr : K × V} (hvec : vecs[index]? = some (vec ++ [curr])) :
    ((vecs.set index vec).flatten ++ [curr]).Perm vecs.flatten := by
  obtain ⟨hlt, hget⟩ := List.getElem?_eq_some_iff.mp hvec
  have hsplit : vecs = vecs.take index ++ (vec ++ [curr]) :: vecs.drop (index + 1) := by
    rw [← hget, List.getElem_cons_drop, List.take_append_drop]
  have hset : vecs.set index vec = vecs.take index ++ vec :: vecs.drop (index + 1) :=
    List.set_eq_take_append_cons_drop.trans (if_pos hlt)
  have hright : vecs.flatten =
      (vecs.take index).flatten ++ (vec ++ ([curr] ++ (vecs.drop (index + 1)).flatten)) := by
    conv_lhs => rw [hsplit]
    simp
  rw [hset, hright, List.flatten_append, List.flatten_cons, List.append_assoc, List.append_assoc]
  exact (List.perm_append_comm.append_left vec).append_left _

/-- No pair is lost, and none is made. -/
theorem pairs_step (hstep : Step less s amount s') :
    (s'.beforeShuffle.flatten ++ s'.afterShuffle.flatten ++ s'.point.temp).Perm
      (s.beforeShuffle.flatten ++ s.afterShuffle.flatten ++ s.point.temp) := by
  cases move_of_step hstep with
  | finish _ => exact List.Perm.refl _
  | start _ => exact List.Perm.refl _
  | push _ => simp [ShufflePoint.temp]
  | skip _ _ => exact List.Perm.refl _
  | @take before after key temp vec curr index hvec _ =>
      have htake := flatten_set_perm hvec
      calc (before.set index vec).flatten ++ after.flatten ++ (temp ++ [curr])
        _ = (before.set index vec).flatten ++ (after.flatten ++ temp ++ [curr]) := by
            simp only [List.append_assoc]
        List.Perm _ ((before.set index vec).flatten ++ ([curr] ++ (after.flatten ++ temp))) :=
            List.perm_append_comm.append_left _
        _ = ((before.set index vec).flatten ++ [curr]) ++ (after.flatten ++ temp) := by
            simp only [List.append_assoc]
        List.Perm _ (before.flatten ++ (after.flatten ++ temp)) := htake.append_right _
        _ = before.flatten ++ after.flatten ++ temp := by simp only [List.append_assoc]

/-- The word counts the pairs that are taken off. -/
theorem amount_step (hstep : Step less s amount s') :
    s'.afterShuffle.flatten.length + s'.point.temp.length =
      s.afterShuffle.flatten.length + s.point.temp.length + amount := by
  cases move_of_step hstep with
  | finish _ => rfl
  | start _ => rfl
  | push _ => simp [ShufflePoint.temp]
  | skip _ _ => rfl
  | take _ _ =>
      rw [Nat.add_assoc]
      simp [ShufflePoint.temp]

theorem length_step (hstep : Step less s amount s') :
    s'.beforeShuffle.length = s.beforeShuffle.length := by
  cases move_of_step hstep with
  | finish _ => rfl
  | start _ => rfl
  | push _ => rfl
  | skip _ _ => rfl
  | take _ _ => exact List.length_set

/-- The shuffle ends when nothing is left. -/
theorem out_step (hstep : Step less s amount s') (hout : s'.point = .out) :
    s'.beforeShuffle = s.beforeShuffle ∧ maxKey less s.beforeShuffle = none := by
  cases move_of_step hstep with
  | finish hkey => exact ⟨rfl, hkey⟩
  | start _ => cases hout
  | push _ => cases hout
  | skip _ _ => cases hout
  | take _ _ => cases hout

/-- No vector before the index ends with the key. -/
def Unmatched (less : K → K → Bool) (vecs : List (IntermediateVec K V)) (key : K) (index : Nat) :
    Prop :=
  ∀ j < index, ∀ vec, vecs[j]? = some vec → ∀ curr, vec.getLast? = some curr →
    sameKey less curr.1 key = false

/-- Every round so far has taken a pair. -/
def Filled (less : K → K → Bool) (s : Shuffle K V) : Prop :=
  (∀ vec ∈ s.afterShuffle, vec ≠ []) ∧
    ∀ key index, s.point = .scan key [] index →
      maxKey less s.beforeShuffle = some key ∧ Unmatched less s.beforeShuffle key index

/-- A round that takes no pair is followed by one that takes no pair. -/
def Stuck (less : K → K → Bool) (s : Shuffle K V) : Prop :=
  ∃ key, maxKey less s.beforeShuffle = some key ∧
    Unmatched less s.beforeShuffle key s.beforeShuffle.length ∧
    (s.point = .key ∨ ∃ index, s.point = .scan key [] index)

theorem Stuck.step (h : s.Stuck less) (hstep : Step less s amount s') : s'.Stuck less := by
  obtain ⟨key, hkey, hunmatched, hpoint⟩ := h
  cases move_of_step hstep with
  | finish hnone =>
      rw [hnone] at hkey
      cases hkey
  | start hstart =>
      rw [hstart] at hkey
      obtain rfl := Option.some.inj hkey
      exact ⟨_, hstart, hunmatched, Or.inr ⟨0, rfl⟩⟩
  | push _ => exact ⟨key, hkey, hunmatched, Or.inl rfl⟩
  | @skip before after key' temp vec index _ _ =>
      obtain ⟨index', hindex⟩ := hpoint.resolve_left (by simp)
      cases hindex
      exact ⟨key, hkey, hunmatched, Or.inr ⟨index + 1, rfl⟩⟩
  | @take before after key' temp vec curr index hvec hsame =>
      obtain ⟨index', hindex⟩ := hpoint.resolve_left (by simp)
      cases hindex
      have hlt := (List.getElem?_eq_some_iff.mp hvec).1
      rw [hunmatched index hlt _ hvec curr (by simp)] at hsame
      cases hsame

theorem Filled.step (h : s.Filled less) (hstep : Step less s amount s') :
    s'.Filled less ∨ s'.Stuck less := by
  obtain ⟨hfilled, hscan⟩ := h
  cases move_of_step hstep with
  | finish _ => exact Or.inl ⟨hfilled, by simp⟩
  | start hkey =>
      left
      refine ⟨hfilled, ?_⟩
      rintro key index heq
      cases heq
      exact ⟨hkey, fun j hj => absurd hj (Nat.not_lt_zero j)⟩
  | @push before after key temp index hnone =>
      by_cases htemp : temp = []
      · subst htemp
        obtain ⟨hkey, hunmatched⟩ := hscan key index rfl
        have hlength := List.getElem?_eq_none_iff.mp hnone
        exact Or.inr ⟨key, hkey, fun j hj => hunmatched j (hj.trans_le hlength), Or.inl rfl⟩
      · left
        refine ⟨?_, by simp⟩
        intro vec hvec
        rcases List.mem_append.mp hvec with hmem | hlast
        · exact hfilled vec hmem
        · rwa [List.mem_singleton.mp hlast]
  | @skip before after key temp vec index hvec hother =>
      left
      refine ⟨hfilled, ?_⟩
      intro key' index' heq
      cases heq
      obtain ⟨hkey, hunmatched⟩ := hscan key index rfl
      refine ⟨hkey, ?_⟩
      intro j hj vec' hvec'
      rcases Nat.lt_succ_iff_lt_or_eq.mp hj with hlt | rfl
      · exact hunmatched j hlt vec' hvec'
      · rw [hvec] at hvec'
        rw [← Option.some.inj hvec']
        exact hother
  | take _ _ =>
      left
      refine ⟨hfilled, ?_⟩
      intro key index heq
      simp at heq

/-- The vectors that the shuffle leaves are not empty, whatever the order is. -/
theorem filled_of_out {vecs : List (IntermediateVec K V)} {amounts : List Nat}
    (hrun : Run (Step less) ⟨vecs, [], .key⟩ amounts s) (hout : s.point = .out) :
    ∀ vec ∈ s.afterShuffle, vec ≠ [] := by
  have hinv : s.Filled less ∨ s.Stuck less := by
    apply hrun.invariant
    · exact Or.inl ⟨by simp, by simp⟩
    · intro before amount after h hstep
      exact h.elim (fun hfilled => hfilled.step hstep) fun hstuck => Or.inr (hstuck.step hstep)
  rcases hinv with hfilled | ⟨key, -, -, hpoint⟩
  · exact hfilled.1
  · rw [hout] at hpoint
    simp at hpoint

end Shuffle

end Step

/-! ### One round -/

section Round

variable {K V : Type} {less : K → K → Bool}

theorem takeGroup_concat (maxKey : K) (vec : IntermediateVec K V) (curr : K × V) :
    takeGroup less maxKey (vec ++ [curr]) =
      if sameKey less curr.1 maxKey then curr :: takeGroup less maxKey vec else [] := by
  rw [takeGroup, List.reverse_append, List.reverse_singleton, List.singleton_append,
    List.takeWhile_cons]
  rfl

theorem dropGroup_concat (maxKey : K) (vec : IntermediateVec K V) (curr : K × V) :
    dropGroup less maxKey (vec ++ [curr]) =
      if sameKey less curr.1 maxKey then dropGroup less maxKey vec else vec ++ [curr] := by
  rw [dropGroup, List.reverse_append, List.reverse_singleton, List.singleton_append,
    List.dropWhile_cons]
  split
  · rfl
  · simp

theorem take_perm (less : K → K → Bool) (maxKey : K) (vec : IntermediateVec K V) :
    (takeGroup less maxKey vec ++ dropGroup less maxKey vec).Perm vec := by
  have hreverse : (takeGroup less maxKey vec ++ dropGroup less maxKey vec).Perm
      (takeGroup less maxKey vec ++ vec.reverse.dropWhile fun p => sameKey less p.1 maxKey) :=
    (List.reverse_perm _).append_left _
  have hwhole : takeGroup less maxKey vec ++ vec.reverse.dropWhile
      (fun p => sameKey less p.1 maxKey) = vec.reverse :=
    List.takeWhile_append_dropWhile
  rw [hwhole] at hreverse
  exact hreverse.trans (List.reverse_perm vec)

theorem round_perm (less : K → K → Bool) (maxKey : K) (vecs : List (IntermediateVec K V)) :
    (vecs.flatMap (takeGroup less maxKey) ++ (vecs.map (dropGroup less maxKey)).flatten).Perm
      vecs.flatten := by
  induction vecs with
  | nil => exact List.Perm.nil
  | cons vec vecs ih =>
      rw [List.flatMap_cons, List.map_cons, List.flatten_cons, List.flatten_cons, List.append_assoc]
      have hswap := (List.perm_append_comm_assoc (vecs.flatMap (takeGroup less maxKey))
        (dropGroup less maxKey vec) (vecs.map (dropGroup less maxKey)).flatten).append_left
          (takeGroup less maxKey vec)
      have hvec := (take_perm less maxKey vec).append ih
      rw [List.append_assoc] at hvec
      exact hswap.trans hvec

theorem maxKey_eq_none_iff {beforeShuffle : List (IntermediateVec K V)} :
    maxKey less beforeShuffle = none ↔ ∀ vec ∈ beforeShuffle, vec = [] := by
  unfold maxKey
  cases hfind : beforeShuffle.findSome? List.getLast? with
  | none => simpa using List.findSome?_eq_none_iff.mp hfind
  | some back =>
      obtain ⟨vec, hvec, hback⟩ := List.exists_of_findSome?_eq_some hfind
      refine iff_of_false (by simp) fun hall => ?_
      rw [hall vec hvec] at hback
      cases hback

theorem laterKey_eq (less : K → K → Bool) (key : K) (vec : IntermediateVec K V) :
    laterKey less key vec = key ∨
      ∃ back, vec.getLast? = some back ∧ laterKey less key vec = back.1 := by
  unfold laterKey
  cases vec.getLast? with
  | none => exact Or.inl rfl
  | some back =>
      by_cases hless : less key back.1 = true
      · exact Or.inr ⟨back, rfl, if_pos hless⟩
      · exact Or.inl (if_neg hless)

/-- The largest key is the key of the last pair of some vector. -/
theorem foldl_laterKey_eq (less : K → K → Bool) (vecs : List (IntermediateVec K V)) (key : K) :
    vecs.foldl (laterKey less) key = key ∨
      ∃ vec ∈ vecs, ∃ back, vec.getLast? = some back ∧ vecs.foldl (laterKey less) key = back.1 := by
  induction vecs generalizing key with
  | nil => exact Or.inl rfl
  | cons vec vecs ih =>
      rw [List.foldl_cons]
      rcases ih (laterKey less key vec) with hkey | ⟨vec', hvec', back, hback, heq⟩
      · rw [hkey]
        rcases laterKey_eq less key vec with hsame | ⟨back, hback, heq⟩
        · exact Or.inl hsame
        · exact Or.inr ⟨vec, List.mem_cons_self, back, hback, heq⟩
      · exact Or.inr ⟨vec', List.mem_cons_of_mem vec hvec', back, hback, heq⟩

theorem exists_of_maxKey {beforeShuffle : List (IntermediateVec K V)} {key : K}
    (hkey : maxKey less beforeShuffle = some key) :
    ∃ vec ∈ beforeShuffle, ∃ back, vec.getLast? = some back ∧ key = back.1 := by
  unfold maxKey at hkey
  cases hfind : beforeShuffle.findSome? List.getLast? with
  | none => simp [hfind] at hkey
  | some first =>
      obtain ⟨vec, hvec, hfirst⟩ := List.exists_of_findSome?_eq_some hfind
      simp only [hfind, Option.some.injEq] at hkey
      subst hkey
      rcases foldl_laterKey_eq less beforeShuffle first.1 with hsame | hother
      · exact ⟨vec, hvec, first, hfirst, hsame⟩
      · exact hother

namespace Shuffle

/-- The loop at one vector. -/
theorem run_vec (less : K → K → Bool) (scanned rest afterShuffle : List (IntermediateVec K V))
    (maxKey : K) (vec temp : IntermediateVec K V) :
    ∃ amounts, Run (Step less) ⟨scanned ++ vec :: rest, afterShuffle, .scan maxKey temp scanned.length⟩
        amounts ⟨scanned ++ dropGroup less maxKey vec :: rest, afterShuffle,
          .scan maxKey (temp ++ takeGroup less maxKey vec) (scanned.length + 1)⟩ ∧
      amounts.sum = (takeGroup less maxKey vec).length := by
  induction vec using List.reverseRecOn generalizing temp with
  | nil =>
      have hstep : Step less ⟨scanned ++ [] :: rest, afterShuffle, .scan maxKey temp scanned.length⟩ 0
          ⟨scanned ++ [] :: rest, afterShuffle, .scan maxKey temp (scanned.length + 1)⟩ := by
        simp [Step, next]
      refine ⟨[0], ?_, rfl⟩
      rw [show takeGroup less maxKey ([] : IntermediateVec K V) = [] from rfl, List.append_nil]
      exact Run.start.next hstep
  | append_singleton vec curr ih =>
      rw [takeGroup_concat, dropGroup_concat]
      split
      · rename_i hsame
        obtain ⟨amounts, hrun, hsum⟩ := ih (temp ++ [curr])
        have hstep : Step less
            ⟨scanned ++ (vec ++ [curr]) :: rest, afterShuffle, .scan maxKey temp scanned.length⟩ 1
            ⟨scanned ++ vec :: rest, afterShuffle, .scan maxKey (temp ++ [curr]) scanned.length⟩ := by
          simp [Step, next, hsame]
        refine ⟨[1] ++ amounts, (Run.start.next hstep).append ?_, ?_⟩
        · rwa [List.append_assoc] at hrun
        · rw [List.sum_append, hsum]
          simp [Nat.add_comm]
      · rename_i hsame
        refine ⟨[0], Run.start.next ?_, rfl⟩
        simp [Step, next, hsame]

/-- The loop over the vectors. -/
theorem run_scan (less : K → K → Bool) (rest scanned afterShuffle : List (IntermediateVec K V))
    (maxKey : K) (temp : IntermediateVec K V) :
    ∃ amounts, Run (Step less) ⟨scanned ++ rest, afterShuffle, .scan maxKey temp scanned.length⟩ amounts
        ⟨scanned ++ rest.map (dropGroup less maxKey),
          afterShuffle ++ [temp ++ rest.flatMap (takeGroup less maxKey)], .key⟩ ∧
      amounts.sum = (rest.flatMap (takeGroup less maxKey)).length := by
  induction rest generalizing scanned temp with
  | nil =>
      refine ⟨[0], Run.start.next ?_, rfl⟩
      simp [Step, next]
  | cons vec rest ih =>
      obtain ⟨amounts, hrun, hsum⟩ := run_vec less scanned rest afterShuffle maxKey vec temp
      obtain ⟨amounts', hrun', hsum'⟩ := ih (scanned ++ [dropGroup less maxKey vec])
        (temp ++ takeGroup less maxKey vec)
      refine ⟨amounts ++ amounts', hrun.append ?_, ?_⟩
      · simpa using hrun'
      · rw [List.sum_append, hsum, hsum', List.flatMap_cons, List.length_append]

theorem run_round {beforeShuffle : List (IntermediateVec K V)} {key : K}
    (hkey : maxKey less beforeShuffle = some key) (afterShuffle : List (IntermediateVec K V)) :
    ∃ amounts, Run (Step less) ⟨beforeShuffle, afterShuffle, .key⟩ amounts
        ⟨beforeShuffle.map (dropGroup less key),
          afterShuffle ++ [beforeShuffle.flatMap (takeGroup less key)], .key⟩ ∧
      amounts.sum = (beforeShuffle.flatMap (takeGroup less key)).length := by
  have hstep : Step less ⟨beforeShuffle, afterShuffle, .key⟩ 0
      ⟨beforeShuffle, afterShuffle, .scan key [] 0⟩ := by
    simp [Step, next, hkey]
  obtain ⟨amounts, hrun, hsum⟩ := run_scan less beforeShuffle [] afterShuffle key []
  refine ⟨[0] ++ amounts, (Run.start.next hstep).append hrun, ?_⟩
  rw [List.sum_append, hsum]
  exact Nat.zero_add _

end Shuffle

end Round

/-! ### Groups -/

section Groups

variable {K V : Type} {less : K → K → Bool}

def KeyLT (less : K → K → Bool) (a b : K) : Prop := less a b = true

/-- The vector is sorted by `sort_helper`. -/
def SortedVec (less : K → K → Bool) (vec : IntermediateVec K V) : Prop :=
  vec.Pairwise fun p q => ¬ KeyLT less q.1 p.1

theorem sameKey_iff {curr key : K} :
    sameKey less curr key = true ↔ Incomparable (KeyLT less) curr key := by
  simp [sameKey, Incomparable, KeyLT]

theorem takeGroup_same {key : K} {vec : IntermediateVec K V} {p : K × V}
    (hp : p ∈ takeGroup less key vec) : Incomparable (KeyLT less) p.1 key := by
  have hsame : sameKey less p.1 key = true :=
    List.mem_takeWhile_imp (p := fun p : K × V => sameKey less p.1 key) hp
  exact sameKey_iff.mp hsame

/-- A vector of pairs with equivalent keys, and not empty. -/
def IsGroup (less : K → K → Bool) (group : IntermediateVec K V) : Prop :=
  group ≠ [] ∧ ∀ p ∈ group, ∀ q ∈ group, Incomparable (KeyLT less) p.1 q.1

/-- The groups of a list of vectors: their pairs are the pairs of the vectors, and the keys get
strictly smaller from each group to the next. -/
structure Groups (less : K → K → Bool) (vecs groups : List (IntermediateVec K V)) : Prop where
  isGroup : ∀ group ∈ groups, IsGroup less group
  decreasing : groups.Pairwise fun group group' => ∀ p ∈ group, ∀ q ∈ group', KeyLT less q.1 p.1
  perm : groups.flatten.Perm vecs.flatten

theorem Groups.nil {vecs : List (IntermediateVec K V)} (hempty : ∀ vec ∈ vecs, vec = []) :
    Groups less vecs [] where
  isGroup := by simp
  decreasing := List.Pairwise.nil
  perm := by rw [List.flatten_eq_nil_iff.mpr hempty]; rfl

theorem sortedVec_dropGroup {key : K} {vec : IntermediateVec K V} (hsorted : SortedVec less vec) :
    SortedVec less (dropGroup less key vec) := by
  have hsublist : List.Sublist (dropGroup less key vec) vec := by
    rw [dropGroup, ← List.reverse_sublist, List.reverse_reverse]
    exact List.dropWhile_sublist _
  exact List.Pairwise.sublist hsublist hsorted

variable [IsStrictWeakOrder K (KeyLT less)]

theorem not_less_laterKey (key : K) (vec : IntermediateVec K V) :
    ¬ KeyLT less (laterKey less key vec) key := by
  unfold laterKey
  cases vec.getLast? with
  | none => exact irrefl_of (KeyLT less) key
  | some back =>
      by_cases hless : less key back.1 = true
      · simp only [if_pos hless]
        exact asymm_of (KeyLT less) hless
      · simp only [if_neg hless]
        exact irrefl_of (KeyLT less) key

theorem laterKey_not_less {vec : IntermediateVec K V} {back : K × V}
    (hback : vec.getLast? = some back) (key : K) :
    ¬ KeyLT less (laterKey less key vec) back.1 := by
  rw [laterKey, hback]
  by_cases hless : less key back.1 = true
  · simp only [if_pos hless]
    exact irrefl_of (KeyLT less) back.1
  · simp only [if_neg hless]
    exact hless

theorem foldl_not_less (vecs : List (IntermediateVec K V)) (key : K) :
    ¬ KeyLT less (vecs.foldl (laterKey less) key) key ∧
      ∀ vec ∈ vecs, ∀ back, vec.getLast? = some back →
        ¬ KeyLT less (vecs.foldl (laterKey less) key) back.1 := by
  induction vecs generalizing key with
  | nil => exact ⟨irrefl_of (KeyLT less) key, by simp⟩
  | cons vec vecs ih =>
      obtain ⟨hkey, hvecs⟩ := ih (laterKey less key vec)
      rw [List.foldl_cons]
      refine ⟨not_lt_trans (not_less_laterKey key vec) hkey, ?_⟩
      intro vec' hvec' back hback
      rcases List.mem_cons.mp hvec' with rfl | hmem
      · exact not_lt_trans (laterKey_not_less hback key) hkey
      · exact hvecs vec' hmem back hback

/-- No key of the vectors is larger than the largest key. -/
theorem maxKey_not_less {beforeShuffle : List (IntermediateVec K V)} {key : K}
    (hkey : maxKey less beforeShuffle = some key) {vec : IntermediateVec K V}
    (hvec : vec ∈ beforeShuffle) (hsorted : SortedVec less vec) {p : K × V} (hp : p ∈ vec) :
    ¬ KeyLT less key p.1 := by
  obtain ⟨init, back, rfl⟩ := (List.eq_nil_or_concat' vec).resolve_left (List.ne_nil_of_mem hp)
  have hback : ¬ KeyLT less key back.1 := by
    unfold maxKey at hkey
    cases hfind : beforeShuffle.findSome? List.getLast? with
    | none => simp [hfind] at hkey
    | some first =>
        simp only [hfind, Option.some.injEq] at hkey
        rw [← hkey]
        exact (foldl_not_less beforeShuffle first.1).2 _ hvec back (by simp)
  rcases List.mem_append.mp hp with hinit | hlast
  · have hle := (List.pairwise_append.mp hsorted).2.2 p hinit back (List.mem_singleton.mpr rfl)
    exact not_lt_trans hle hback
  · rwa [List.mem_singleton.mp hlast]

theorem sameKey_self (key : K) : sameKey less key key = true :=
  sameKey_iff.mpr ⟨irrefl_of (KeyLT less) key, irrefl_of (KeyLT less) key⟩

/-- What a round leaves in a vector is smaller than its key. -/
theorem dropGroup_lt {key : K} {vec : IntermediateVec K V} (hsorted : SortedVec less vec)
    (hle : ∀ p ∈ vec, ¬ KeyLT less key p.1) : ∀ p ∈ dropGroup less key vec, KeyLT less p.1 key := by
  induction vec using List.reverseRecOn with
  | nil => simp [dropGroup]
  | append_singleton vec curr ih =>
      obtain ⟨hvec, -, hcurr⟩ := List.pairwise_append.mp hsorted
      rw [dropGroup_concat]
      split
      · exact ih hvec fun p hp => hle p (List.mem_append_left _ hp)
      · rename_i hsame
        have hlt : KeyLT less curr.1 key := by
          by_contra hnot
          exact hsame (sameKey_iff.mpr ⟨hnot, hle curr (by simp)⟩)
        intro p hp
        rcases List.mem_append.mp hp with hmem | hlast
        · exact lt_of_not_lt_of_lt (hcurr p hmem curr (List.mem_singleton.mpr rfl)) hlt
        · rwa [List.mem_singleton.mp hlast]

theorem isGroup_round {vecs : List (IntermediateVec K V)} {key : K}
    (hkey : maxKey less vecs = some key) : IsGroup less (vecs.flatMap (takeGroup less key)) := by
  constructor
  · obtain ⟨vec, hvec, back, hback, rfl⟩ := exists_of_maxKey hkey
    obtain ⟨init, rfl⟩ := List.getLast?_eq_some_iff.mp hback
    apply List.ne_nil_of_mem (a := back)
    refine List.mem_flatMap.mpr ⟨_, hvec, ?_⟩
    rw [takeGroup_concat, if_pos (sameKey_self back.1)]
    exact List.mem_cons_self
  · intro p hp q hq
    obtain ⟨vec, -, hp⟩ := List.mem_flatMap.mp hp
    obtain ⟨vec', -, hq⟩ := List.mem_flatMap.mp hq
    exact (takeGroup_same hp).trans (takeGroup_same hq).symm

/-- The groups of what a round leaves come behind the group that it takes. -/
theorem Groups.cons {vecs groups : List (IntermediateVec K V)} {key : K}
    (hkey : maxKey less vecs = some key) (hsorted : ∀ vec ∈ vecs, SortedVec less vec)
    (h : Groups less (vecs.map (dropGroup less key)) groups) :
    Groups less vecs (vecs.flatMap (takeGroup less key) :: groups) where
  isGroup := by
    intro group hgroup
    rcases List.mem_cons.mp hgroup with rfl | hmem
    · exact isGroup_round hkey
    · exact h.isGroup group hmem
  decreasing := by
    refine List.pairwise_cons.mpr ⟨?_, h.decreasing⟩
    intro group hgroup p hp q hq
    obtain ⟨vec, hvec, hp⟩ := List.mem_flatMap.mp hp
    have hleft := h.perm.subset (List.mem_flatten.mpr ⟨group, hgroup, hq⟩)
    obtain ⟨left, hleft, hq⟩ := List.mem_flatten.mp hleft
    obtain ⟨vec', hvec', rfl⟩ := List.mem_map.mp hleft
    have hlt := dropGroup_lt (hsorted vec' hvec')
      (fun p hp => maxKey_not_less hkey hvec' (hsorted vec' hvec') hp) q hq
    exact lt_of_lt_of_not_lt hlt (takeGroup_same hp).1
  perm := by
    rw [List.flatten_cons]
    exact (h.perm.append_left _).trans (round_perm less key vecs)

/-- **The shuffle.** From sorted vectors it comes to an end, with every vector empty; it adds the groups
of their pairs, and counts every pair once. -/
theorem shuffle_groups {vecs : List (IntermediateVec K V)}
    (hsorted : ∀ vec ∈ vecs, SortedVec less vec) (afterShuffle : List (IntermediateVec K V)) :
    ∃ amounts groups, Run (Shuffle.Step less) ⟨vecs, afterShuffle, .key⟩ amounts
        ⟨vecs.map fun _ => [], afterShuffle ++ groups, .out⟩ ∧
      Groups less vecs groups ∧ amounts.sum = vecs.flatten.length := by
  -- the number of pairs that are left goes down with every round
  induction hlength : vecs.flatten.length using Nat.strong_induction_on
    generalizing vecs afterShuffle with
  | _ length ih =>
      subst hlength
      cases hkey : maxKey less vecs with
      | none =>
          have hempty := maxKey_eq_none_iff.mp hkey
          have hsame : vecs.map (fun _ => ([] : IntermediateVec K V)) = vecs := by
            rw [List.map_congr_left fun vec hvec => (hempty vec hvec).symm, List.map_id']
          refine ⟨[0], [], ?_, Groups.nil hempty, ?_⟩
          · rw [hsame, List.append_nil]
            apply Run.start.next
            simp [Shuffle.Step, Shuffle.next, hkey]
          · rw [List.flatten_eq_nil_iff.mpr hempty]
            rfl
      | some key =>
          obtain ⟨amounts, hrun, hsum⟩ := Shuffle.run_round hkey afterShuffle
          have hcount := (round_perm less key vecs).length_eq
          have hpos := List.length_pos_of_ne_nil (isGroup_round hkey).1
          rw [List.length_append] at hcount
          have hleft : ∀ vec ∈ vecs.map (dropGroup less key), SortedVec less vec := by
            intro vec hvec
            obtain ⟨vec', hvec', rfl⟩ := List.mem_map.mp hvec
            exact sortedVec_dropGroup (hsorted vec' hvec')
          obtain ⟨amounts', groups, hrun', hgroups, hsum'⟩ :=
            ih (vecs.map (dropGroup less key)).flatten.length (by omega) hleft
              (afterShuffle ++ [vecs.flatMap (takeGroup less key)]) rfl
          refine ⟨amounts ++ amounts', vecs.flatMap (takeGroup less key) :: groups, ?_,
            hgroups.cons hkey hsorted, ?_⟩
          · rw [List.map_map, List.append_assoc] at hrun'
            exact hrun.append hrun'
          · rw [List.sum_append, hsum, hsum', hcount]

/-- What the shuffle has made when it comes to its end. -/
theorem groups_of_out {vecs : List (IntermediateVec K V)}
    (hsorted : ∀ vec ∈ vecs, SortedVec less vec) {amounts : List Nat} {s : Shuffle K V}
    (hrun : Run (Shuffle.Step less) ⟨vecs, [], .key⟩ amounts s) (hout : s.point = .out) :
    Groups less vecs s.afterShuffle := by
  obtain ⟨amounts', groups, hrun', hgroups, -⟩ := shuffle_groups hsorted []
  obtain ⟨rest, hrest, -⟩ := Run.prefix_of_terminal Shuffle.step_deterministic
    (fun _ _ => Shuffle.step_out rfl) hrun hrun'
  rcases hrest.first_step with ⟨-, rfl⟩ | ⟨amount, rest', middle, -, hfirst, -⟩
  · exact hgroups
  · exact absurd hfirst (Shuffle.step_out hout)

/-- `shuffle_phase` comes to an end: what it does is the beginning of one run. That run empties all
vectors, adds the groups of their pairs and counts every pair. -/
theorem shufflePhase_groups {vecs : List (IntermediateVec K V)}
    (hsorted : ∀ vec ∈ vecs, SortedVec less vec) (afterShuffle : List (IntermediateVec K V)) :
    ∃ amounts groups last, last = ⟨vecs.map fun _ => [], afterShuffle ++ groups, .out⟩ ∧
      Run (Shuffle.Step less) ⟨vecs, afterShuffle, .key⟩ amounts last ∧
      (∀ events s, Run (Shuffle.Step less) ⟨vecs, afterShuffle, .key⟩ events s →
        ∃ rest, Run (Shuffle.Step less) s rest last ∧ amounts = events ++ rest) ∧
      Groups less vecs groups ∧ amounts.sum = vecs.flatten.length := by
  obtain ⟨amounts, groups, hrun, hgroups, hsum⟩ := shuffle_groups hsorted afterShuffle
  refine ⟨amounts, groups, _, rfl, hrun, ?_, hgroups, hsum⟩
  intro events s hbefore
  apply Run.prefix_of_terminal Shuffle.step_deterministic _ hbefore hrun
  intro amount s' hstep
  cases hstep

/-- Numbers as keys. -/
theorem isStrictWeakOrder_nat : IsStrictWeakOrder Nat (KeyLT fun a b => decide (a < b)) where
  irrefl a := by simp [KeyLT]
  trans a b c := by
    simp only [KeyLT, decide_eq_true_eq]
    exact Nat.lt_trans
  incomp_trans a b c := by
    simp only [KeyLT, decide_eq_true_eq]
    omega

theorem shufflePhase_two : ∃ amounts groups,
    Run (Shuffle.Step fun a b => decide (a < b)) ⟨[[(1, 0), (2, 0)], [(2, 1)]], [], .key⟩ amounts
      ⟨[[], []], groups, .out⟩ ∧ amounts.sum = 3 := by
  have := isStrictWeakOrder_nat
  have hsorted : ∀ vec ∈ [[(1, 0), (2, 0)], [(2, 1)]],
      SortedVec (fun a b => decide (a < b)) vec := by
    simp [SortedVec, KeyLT]
  obtain ⟨amounts, groups, last, rfl, hrun, -, -, hsum⟩ := shufflePhase_groups hsorted []
  exact ⟨amounts, groups, hrun, hsum⟩

end Groups

end OsExercises.MapReduce
