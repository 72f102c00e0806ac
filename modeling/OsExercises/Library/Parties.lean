import Mathlib.Algebra.BigOperators.Group.Finset.Piecewise
import Mathlib.Algebra.Order.BigOperators.Group.Finset
import Mathlib.Data.Fintype.Card
import Mathlib.Tactic.Abel

/-!
# Sums over the parties of a system

Every party of a concurrent system has a state of its own, and a step changes one of them. `total`
adds up what each party has in hand; a step moves an amount between a party and the shared state, so
an invariant about a total needs to look at the party that moves only.
-/

namespace OsExercises

open Function (update)

variable {ι α M : Type} [Fintype ι]

section Total

variable [AddCommMonoid M]

def total (weight : α → M) (parties : ι → α) : M := ∑ i, weight (parties i)

theorem total_update [DecidableEq ι] (weight : α → M) (parties : ι → α) (i : ι) (a : α) :
    total weight (update parties i a) + weight (parties i) = total weight parties + weight a := by
  have hupdate : (fun j => weight (update parties i a j)) =
      update (fun j => weight (parties j)) i (weight a) := by
    funext j
    by_cases heq : j = i
    · subst heq
      simp
    · simp [heq]
  have hsplit : ∑ j, weight (parties j) =
      weight (parties i) + ∑ j ∈ Finset.univ \ {i}, weight (parties j) := by
    rw [Finset.sdiff_singleton_eq_erase]
    exact (Finset.add_sum_erase _ _ (Finset.mem_univ i)).symm
  unfold total
  rw [hupdate, Finset.sum_update_of_mem (Finset.mem_univ i), hsplit]
  abel

theorem total_eq_zero {weight : α → M} {parties : ι → α} (hzero : ∀ i, weight (parties i) = 0) :
    total weight parties = 0 :=
  Finset.sum_eq_zero fun i _ => hzero i

theorem le_total (weight : α → Nat) (parties : ι → α) (i : ι) :
    weight (parties i) ≤ total weight parties :=
  Finset.single_le_sum (fun j _ => Nat.zero_le (weight (parties j))) (Finset.mem_univ i)

end Total

/-! ### Counting parties -/

section Count

variable (p : α → Prop) [DecidablePred p] (parties : ι → α)

/-- How many parties are in a state of a kind. -/
def countParties : Nat := total (fun a => if p a then 1 else 0) parties

theorem countParties_update [DecidableEq ι] (i : ι) (a : α) :
    countParties p (update parties i a) + (if p (parties i) then 1 else 0) =
      countParties p parties + if p a then 1 else 0 :=
  total_update _ parties i a

theorem countParties_eq_card :
    countParties p parties = (Finset.univ.filter fun i => p (parties i)).card := by
  rw [countParties, total, Finset.card_filter]

theorem countParties_le : countParties p parties ≤ Fintype.card ι := by
  rw [countParties_eq_card]
  exact Finset.card_le_univ _

/-- All parties but one are of the kind. -/
theorem of_countParties_add_one {i : ι} (hcount : countParties p parties + 1 = Fintype.card ι)
    (hi : ¬ p (parties i)) {j : ι} (hne : j ≠ i) : p (parties j) := by
  by_contra hj
  classical
  have hsubset : (Finset.univ.filter fun k => p (parties k)) ⊆ Finset.univ \ {i, j} := by
    intro k hk
    have hp := (Finset.mem_filter.mp hk).2
    simp only [Finset.mem_sdiff, Finset.mem_univ, true_and, Finset.mem_insert,
      Finset.mem_singleton, not_or]
    constructor
    · rintro rfl
      exact hi hp
    · rintro rfl
      exact hj hp
  have hcard := Finset.card_le_card hsubset
  have hpair : ({i, j} : Finset ι).card = 2 := Finset.card_pair hne.symm
  have hle := Finset.card_le_univ ({i, j} : Finset ι)
  rw [Finset.card_sdiff_of_subset (Finset.subset_univ _), ← countParties_eq_card,
    Finset.card_univ, hpair] at hcard
  omega

theorem exists_not_of_countParties_lt (hcount : countParties p parties < Fintype.card ι) :
    ∃ i, ¬ p (parties i) := by
  by_contra hall
  have hall' : ∀ i, p (parties i) := fun i => by_contra fun hi => hall ⟨i, hi⟩
  rw [countParties_eq_card, Finset.filter_true_of_mem fun i _ => hall' i, Finset.card_univ] at hcount
  exact lt_irrefl _ hcount

end Count

end OsExercises
