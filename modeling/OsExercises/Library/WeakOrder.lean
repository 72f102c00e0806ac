import Mathlib.Order.RelClasses

/-!
# Strict weak orders

An order such as the ones C++ sorts by: elements that are not ordered either way are equivalent, and
"not before" is transitive.
-/

namespace OsExercises

variable {α : Type} (lt : α → α → Prop)

/-- Neither of the two is before the other. -/
def Incomparable (a b : α) : Prop := ¬ lt a b ∧ ¬ lt b a

variable {lt} {a b c : α}

theorem Incomparable.symm (h : Incomparable lt a b) : Incomparable lt b a := ⟨h.2, h.1⟩

section

variable [IsStrictWeakOrder α lt]

theorem Incomparable.trans (hab : Incomparable lt a b) (hbc : Incomparable lt b c) :
    Incomparable lt a c :=
  IsStrictWeakOrder.incomp_trans a b c hab hbc

theorem not_lt_trans (hba : ¬ lt b a) (hcb : ¬ lt c b) : ¬ lt c a := by
  intro hca
  have hab : ¬ lt a b := fun hab => hcb (IsTrans.trans c a b hca hab)
  have hbc : ¬ lt b c := fun hbc => hba (IsTrans.trans b c a hbc hca)
  exact (Incomparable.trans ⟨hab, hba⟩ ⟨hbc, hcb⟩).2 hca

theorem lt_of_lt_of_not_lt (hab : lt a b) (hcb : ¬ lt c b) : lt a c := by
  by_contra hac
  exact not_lt_trans hcb hac hab

theorem lt_of_not_lt_of_lt (hba : ¬ lt b a) (hbc : lt b c) : lt a c := by
  by_contra hac
  exact not_lt_trans hac hba hbc

end

end OsExercises
